import ChittaField.Checkpoint.Runs
import ChittaField.Organs.Dispatch

/-!
# Organs across a checkpoint

A save writes a coverage vector for all operations of the log, and the next open replays only what
the vector does not cover.  The snapshot has the maps of the memories, but not the organs of
`OrganName`: these start anew.  So an organ loses the operations that it owned before the last save
(`organs_survive_iff`).
-/

namespace ChittaField

variable {F : Type}

/-- The state of an organ after an open: it starts anew and is given what is replayed. -/
def Disk.reopenOrgan (O : OrganName → Organ F) (name : OrganName) (d : Disk F) :
    Except FieldError (O name).State :=
  d.load.map fun loaded =>
    applyOrgans O ((d.replayed loaded).map (·.2.2)) (fun name => (O name).new) name

namespace Checkpointed

/-- The field itself logs an operation, or saves. -/
def Event.IsOwn : Event F → Prop
  | .append _ | .save _ => True
  | .peer _ | .ingest => False

/-- One more event, for the operations that were logged before the last save and those after it. -/
def splitStep (p : List (Op F) × List (Op F)) : Event F → List (Op F) × List (Op F)
  | .append op => (p.1, p.2 ++ [op])
  | .save _ => (p.1 ++ p.2, [])
  | .peer _ | .ingest => p

/-- The operations that were logged before the last save, and those after it. -/
def splitAtSave (events : List (Event F)) : List (Op F) × List (Op F) :=
  events.foldl splitStep ([], [])

/-! ## What is replayed -/

/-- The field has logged operations of its own only: those that the snapshot on disk holds, if there
is one, and the others. -/
structure OwnLog (s : Checkpointed F) (saved fresh : List (LogRecord F)) : Prop where
  consistent : s.Consistent
  pending : s.pending = []
  log : s.log = saved ++ fresh
  wal : s.disk.wal.Sublist s.log
  kept : s.disk.Unsaved ∧ saved = [] ∧ s.disk.wal.Perm s.log ∨
    ∃ m seqno, s.Keeps saved fresh m seqno

variable {s : Checkpointed F}

variable {saved fresh : List (LogRecord F)}

lemma OwnLog.append (h : s.OwnLog saved fresh) (op : Op F) :
    (s.append op).OwnLog saved (fresh ++ [(s.inst, s.nextSeqno, op)]) := by
  refine ⟨h.consistent.append op, h.pending, ?_, h.wal.append (.refl _), ?_⟩
  · rw [← List.append_assoc, ← h.log]
    rfl
  · rcases h.kept with ⟨hun, hnil, hperm⟩ | ⟨m, seqno, hk⟩
    · exact Or.inl ⟨⟨hun.snapshots, hun.manifest⟩, hnil, hperm.append_right _⟩
    · exact Or.inr ⟨m, seqno, hk.append h.consistent.knows op⟩

/-- The steps of a save only remove records. -/
lemma takeSteps_wal_sublist (s : Checkpointed F) (env : SaveEnv F) :
    (s.save env).disk.wal.Sublist s.disk.wal := by
  refine takeSteps_induction (P := fun d => d.wal.Sublist s.disk.wal) (fun step hstep d hd => ?_)
    (.refl _)
  simp only [saveSteps, sidecarSteps, List.mem_append, List.mem_map, List.mem_cons,
    List.not_mem_nil, or_false] at hstep
  rcases hstep with ((⟨e, -, rfl⟩ | rfl | rfl | rfl) | ⟨segment, -, rfl⟩) | ⟨f, -, rfl⟩
  · exact hd
  · exact hd
  · exact hd
  · exact hd
  · unfold Disk.removeSegment
    split
    · exact List.filter_sublist.trans hd
    · exact hd
  · unfold Disk.removeOld
    split <;> exact hd

lemma OwnLog.save (h : s.OwnLog saved fresh) (env : SaveEnv F) :
    (s.save env).OwnLog (saved ++ fresh) [] := by
  refine ⟨h.consistent.save env, h.pending, h.log.trans (List.append_nil _).symm,
    (s.takeSteps_wal_sublist env).trans h.wal, Or.inr ⟨s.coverage, s.lastSeqno, ?_⟩⟩
  rw [← h.log]
  exact (h.consistent.save_keeps env).2

lemma OwnLog.run (h : s.OwnLog saved fresh) {events : List (Event F)} (hown : ∀ e ∈ events, e.IsOwn) :
    ∃ saved' fresh', (s.run events).OwnLog saved' fresh' ∧
      (saved'.map (·.2.2), fresh'.map (·.2.2)) =
        events.foldl splitStep (saved.map (·.2.2), fresh.map (·.2.2)) := by
  induction events generalizing s saved fresh with
  | nil => exact ⟨saved, fresh, h, rfl⟩
  | cons e events ih =>
    have hrest : ∀ e ∈ events, e.IsOwn := (List.forall_mem_cons.mp hown).2
    cases e with
    | append op =>
      obtain ⟨saved', fresh', hrun, hsplit⟩ := ih (h.append op) hrest
      exact ⟨saved', fresh', hrun, by simpa [splitStep] using hsplit⟩
    | save env =>
      obtain ⟨saved', fresh', hrun, hsplit⟩ := ih (h.save env) hrest
      exact ⟨saved', fresh', hrun, by simpa [splitStep] using hsplit⟩
    | peer r => exact absurd (hown _ List.mem_cons_self) id
    | ingest => exact absurd (hown _ List.mem_cons_self) id

/-- The operations since the last save are replayed, and no others. -/
lemma OwnLog.replayed (h : s.OwnLog saved fresh) :
    ∃ loaded, s.disk.load = .ok loaded ∧ s.disk.replayed loaded = fresh := by
  rcases h.kept with ⟨hun, rfl, hperm⟩ | ⟨m, seqno, hk⟩
  · refine ⟨none, Disk.load_of_none h.consistent.named hun.snapshots, ?_⟩
    rw [h.consistent.knows.replayed_none fun r hr => List.mem_append_left _ (h.wal.subset hr),
      h.wal.eq_of_length hperm.length_eq, h.log, List.nil_append]
  · refine ⟨some s.stem, Disk.load_of_one h.consistent.named hk.saved.snapshots hk.saved.peek, ?_⟩
    have hsaved : (saved.filter fun r => !coveredBy m r) = [] :=
      List.filter_eq_nil_iff.mpr fun r hr => by simp [hk.covered r hr]
    have hsub : (s.disk.wal.filter fun r => !coveredBy m r).Sublist fresh := by
      have hfilter := h.wal.filter fun r => !coveredBy m r
      rw [h.log, List.filter_append, hsaved, List.nil_append] at hfilter
      exact hfilter.trans List.filter_sublist
    have hlen := hk.wal.length_eq
    rw [h.pending, List.append_nil] at hlen
    rw [Disk.replayed, hk.covers_eq h.consistent.knows hk.saved]
    exact hsub.eq_of_length hlen

/-! ## What becomes of an organ -/

/-- The organ that counts its operations. -/
def counter (F : Type) : Organ F := ⟨ℕ, 0, fun _ n => n + 1⟩

lemma foldOrgan_counter (name : OrganName) (ops : List (Op F)) :
    foldOrgan (fun _ => counter F) name ops =
      (ops.filter fun op => owner op = some name).length := by
  have hcount : ∀ (ops : List (Op F)) (n : ℕ), ops.foldl (fun n _ => n + 1) n = n + ops.length := by
    intro ops
    induction ops with
    | nil => exact fun n => rfl
    | cons op ops ih =>
      intro n
      rw [List.foldl_cons, ih, List.length_cons, Nat.add_right_comm, Nat.add_assoc]
  rw [foldOrgan_eq]
  exact (hcount _ 0).trans (Nat.zero_add _)

/-- In a run that logs operations and saves, an organ comes back with all of its operations, whatever
it does with them, just if it owned none before the last save. -/
theorem organs_survive_iff (h : s.Opened) (hlog : s.log = []) {events : List (Event F)}
    (hown : ∀ e ∈ events, e.IsOwn) (name : OrganName) :
    (∀ O : OrganName → Organ F, (s.run events).disk.reopenOrgan O name =
      .ok (foldOrgan O name ((s.run events).log.map (·.2.2)))) ↔
      ∀ op ∈ (splitAtSave events).1, owner op ≠ some name := by
  have hstart : s.OwnLog [] [] := by
    refine ⟨h.consistent, h.pending, hlog, ?_, Or.inl ⟨h.unsaved, rfl, h.replayed⟩⟩
    have hnil : s.disk.wal = [] := by
      have hperm := h.replayed
      rw [hlog] at hperm
      exact hperm.eq_nil
    rw [hnil, hlog]
  obtain ⟨saved, fresh, hrun, hsplit⟩ := hstart.run hown
  obtain ⟨loaded, hload, hreplayed⟩ := hrun.replayed
  have hsaved : (splitAtSave events).1 = saved.map (·.2.2) := (congrArg Prod.fst hsplit).symm
  have hreopen : ∀ O : OrganName → Organ F, (s.run events).disk.reopenOrgan O name =
      .ok (foldOrgan O name (fresh.map (·.2.2))) := fun O => by
    rw [Disk.reopenOrgan, hload, Except.map, hreplayed, applyOrgans_eq]
    rfl
  rw [hsaved, hrun.log, List.map_append]
  constructor
  · intro hall op hop hown'
    have hcount := (hreopen fun _ => counter F).symm.trans (hall fun _ => counter F)
    rw [Except.ok.injEq, foldOrgan_counter, foldOrgan_counter, List.filter_append] at hcount
    have hlen := hcount.trans List.length_append
    have hnil := List.eq_nil_of_length_eq_zero (Nat.right_eq_add.mp hlen)
    exact List.filter_eq_nil_iff.mp hnil op hop (by simpa using hown')
  · intro hnone O
    rw [hreopen, foldOrgan_append_of_ne hnone]

/-! ## A skill that is lost -/

/-- A skill. -/
def sampleSkill : Op ℚ := .skillUpload ⟨"review", "steps", "agent", [], 5⟩

/-- Behind a save the skill is gone. -/
theorem skill_lost_behind_save :
    ¬ ((newField.run [.append sampleSkill, .save plainSave]).disk.reopenOrgan
        (fun _ => SkillRegistry.organ) .skill =
      .ok (foldOrgan (fun _ => SkillRegistry.organ) .skill
        ((newField.run [.append sampleSkill, .save plainSave]).log.map (·.2.2)))) ∧
      ((newField.run [.append sampleSkill, .save plainSave]).disk.reopenOrgan
        (fun _ => SkillRegistry.organ) .skill).toOption.map (fun r : SkillRegistry => r "review") =
          some none := by
  have hgone : ((newField.run [.append sampleSkill, .save plainSave]).disk.reopenOrgan
      (fun _ => SkillRegistry.organ) .skill).toOption.map (fun r : SkillRegistry => r "review") =
        some none := by decide +kernel
  refine ⟨fun heq => ?_, hgone⟩
  rw [heq] at hgone
  revert hgone
  decide +kernel

/-- A skill that is uploaded behind the save stays. -/
theorem organs_survive_skill :
    (newField.run [.save plainSave, .append sampleSkill]).disk.reopenOrgan
        (fun _ => SkillRegistry.organ) .skill =
      .ok (foldOrgan (fun _ => SkillRegistry.organ) .skill
        ((newField.run [.save plainSave, .append sampleSkill]).log.map (·.2.2))) := by
  have hown : ∀ e ∈ [Event.save plainSave, .append sampleSkill], e.IsOwn := by
    intro e he
    rcases List.mem_pair.mp he with rfl | rfl <;> trivial
  exact (organs_survive_iff newField_opened rfl hown .skill).mpr
    (fun op hop => absurd hop List.not_mem_nil) _

end Checkpointed

end ChittaField
