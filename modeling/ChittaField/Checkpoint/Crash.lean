import ChittaField.Checkpoint.Runs
import ChittaField.Memory.Tallies

/-!
# A crash during a save

All saves of an instance write the same files.  When the process dies between the write of the
snapshot and the save of the manifest, the new snapshot is on disk next to the coverage vector of the
one that it replaced, and the records between the two are applied a second time.

`crash_reopens_iff` says that this is the only crash that does harm, and when it does.
-/

namespace ChittaField

variable {F : Type}

namespace Checkpointed

variable {s : Checkpointed F}

/-- The disk gives back every record of the history once. -/
def Recovers (s : Checkpointed F) (d : Disk F) : Prop :=
  ∃ applied, d.reopen = .ok applied ∧ applied.Perm s.history

/-- Then it gives back what the history counts: accesses, outcomes and edges. -/
lemma Recovers.countAlike {s : Checkpointed ℚ} {d : Disk ℚ} (h : s.Recovers d) : ∃ applied,
    d.reopen = .ok applied ∧ CountAlike (applied.map (·.2.2)) (s.history.map (·.2.2)) := by
  obtain ⟨applied, hok, hperm⟩ := h
  exact ⟨applied, hok, countAlike_of_perm (hperm.map _)⟩

/-- What was applied since the last save would not be missed in the coverage vector: there is
nothing, or there was no save yet, and the records that were applied are those up to the own last
sequence number. -/
def Accounted (s : Checkpointed F) : Prop :=
  if s.disk.manifests.load.isSome then s.disk.held s.stem = s.log
  else (∀ r ∈ s.log, r.2.1 ≤ s.lastSeqno) ∧ ∀ r ∈ s.pending, s.lastSeqno < r.2.1

/-! ## Crashes outside of the commit -/

variable {d : Disk F}

/-- Without a snapshot all records are replayed. -/
lemma Knows.recovers_unsaved (h : s.Knows) (hnamed : d.Named) (hd : d.Unsaved)
    (hwal : d.wal.Perm s.history) : s.Recovers d := by
  refine ⟨d.wal, ?_, hwal⟩
  rw [Disk.reopen, Disk.load_of_none hnamed hd.snapshots, Except.map,
    h.replayed_none fun r hr => hwal.mem_iff.mp hr]
  rfl

/-- A snapshot is completed by the records that its vector does not cover. -/
lemma recovers_saved (hnamed : d.Named) {held fresh : List (LogRecord F)}
    {m : OrderedMap InstanceId ℕ} {seqno : ℕ} (hd : d.Saved s.stem held m seqno)
    (hcovers : d.covers (some s.stem) = coveredBy m) (hlog : s.log = held ++ fresh)
    (hwal : (d.wal.filter fun r => !coveredBy m r).Perm (fresh ++ s.pending)) : s.Recovers d := by
  refine ⟨held ++ d.replayed (some s.stem), ?_, ?_⟩
  · rw [Disk.reopen, Disk.load_of_one hnamed hd.snapshots hd.peek, Except.map, Option.map_some,
      Option.getD_some, hd.held]
  · rw [Disk.replayed, hcovers, history, hlog, List.append_assoc]
    exact hwal.append_left held

/-- Sidecars do no harm. -/
lemma Consistent.recovers_alike (h : s.Consistent) (hd : Disk.Alike s.disk d) (hnamed : d.Named) :
    s.Recovers d := by
  rcases h.kept with ⟨hun, hwal⟩ | ⟨held, fresh, m, seqno, hk⟩
  · exact h.knows.recovers_unsaved hnamed (hd.unsaved hun) (hd.wal ▸ hwal)
  · have hsaved := hd.saved hk.saved
    exact recovers_saved hnamed hsaved (hk.covers_eq h.knows hsaved) hk.log (hd.wal ▸ hk.wal)

lemma Committed.recovers (hd : s.Committed d) (h : s.Knows) : s.Recovers d :=
  recovers_saved hd.named hd.saved (h.covers_eq hd.saved) (List.append_nil _).symm hd.wal

/-! ## A crash before the manifest is saved -/

/-- After an earlier save the manifest covers what that save held. -/
lemma Keeps.accounted_iff {held fresh : List (LogRecord F)} {m : OrderedMap InstanceId ℕ} {seqno : ℕ}
    (hk : s.Keeps held fresh m seqno) (h : s.Knows) :
    (s.disk.wal.filter fun r => !s.disk.coversUncommitted s.stem s.lastSeqno r).Perm s.pending ↔
      s.Accounted := by
  have hcovers : s.disk.coversUncommitted s.stem s.lastSeqno = coveredBy m := by
    obtain ⟨f, hf, hcov⟩ := hk.saved.familyFor
    obtain ⟨n, hn⟩ := hk.own
    funext r
    exact LoadedSnapshots.coveredByFull_eq (by rw [hf]; rfl) hcov (hk.keys h) hn r
  have hload : s.disk.manifests.load.isSome := by
    obtain ⟨mf, f, hload, -⟩ := hk.saved.manifest
    rw [hload, Option.isSome_some]
  rw [hcovers, Accounted, if_pos hload, hk.saved.held, hk.log]
  constructor
  · intro hperm
    have hlen := (hk.wal.symm.trans hperm).length_eq
    rw [List.length_append] at hlen
    rw [List.eq_nil_of_length_eq_zero (by omega : fresh.length = 0), List.append_nil]
  · intro heq
    have hnil : fresh = [] := List.self_eq_append_right.mp heq
    simpa [hnil] using hk.wal

/-- Before the first save the scalar sequence number decides. -/
lemma accounted_iff_of_unsaved (h : s.Knows) (hun : s.disk.Unsaved)
    (hwal : s.disk.wal.Perm s.history) :
    (s.disk.wal.filter fun r => !s.disk.coversUncommitted s.stem s.lastSeqno r).Perm s.pending ↔
      s.Accounted := by
  have hcovers : s.disk.coversUncommitted s.stem s.lastSeqno =
      fun r => decide (r.2.1 ≤ s.lastSeqno) := by
    have hfamily : s.disk.familyFor s.stem = none := by
      rw [Disk.familyFor, hun.manifest, Option.bind_none]
    funext r
    exact LoadedSnapshots.coveredByFull_of_none (by rw [hfamily]; rfl) r.1 r.2.1
  have hsplit := hwal.filter fun r => !decide (r.2.1 ≤ s.lastSeqno)
  rw [history, List.filter_append] at hsplit
  rw [hcovers, Accounted, hun.manifest]
  constructor
  · intro hperm
    have hnil : s.log.filter (fun r => !decide (r.2.1 ≤ s.lastSeqno)) = [] := by
      refine List.eq_nil_iff_forall_not_mem.mpr fun r hr => ?_
      have hmem := hperm.mem_iff.mp (hsplit.mem_iff.mpr (List.mem_append_left _ hr))
      have hcov := h.covered_log (List.mem_filter.mp hr).1
      rw [h.uncovered_pending hmem] at hcov
      cases hcov
    rw [hnil, List.nil_append] at hsplit
    have hall := List.filter_eq_self.mp
      (List.filter_sublist.eq_of_length (hsplit.symm.trans hperm).length_eq)
    exact ⟨fun r hr => by simpa using List.filter_eq_nil_iff.mp hnil r hr,
      fun r hr => by simpa using hall r hr⟩
  · rintro ⟨hlog, hpending⟩
    have hnil : s.log.filter (fun r => !decide (r.2.1 ≤ s.lastSeqno)) = [] :=
      List.filter_eq_nil_iff.mpr fun r hr => by simpa using hlog r hr
    have hall : s.pending.filter (fun r => !decide (r.2.1 ≤ s.lastSeqno)) = s.pending :=
      List.filter_eq_self.mpr fun r hr => by simpa using hpending r hr
    rwa [hnil, hall, List.nil_append] at hsplit

lemma Consistent.recovers_written (h : s.Consistent) (hd : s.disk.Written s.stem s.lastSeqno s.log d)
    (hnamed : d.Named) : s.Recovers d ↔ s.Accounted := by
  have hiff : (s.disk.wal.filter fun r =>
      !s.disk.coversUncommitted s.stem s.lastSeqno r).Perm s.pending ↔ s.Accounted := by
    rcases h.kept with ⟨hun, hwal⟩ | ⟨held, fresh, m, seqno, hk⟩
    · exact accounted_iff_of_unsaved h.knows hun hwal
    · exact hk.accounted_iff h.knows
  rw [← hiff, Recovers, hd.reopen h.own hnamed]
  constructor
  · rintro ⟨applied, happlied, hperm⟩
    obtain rfl := Except.ok.inj happlied
    exact (List.perm_append_left_iff _).mp hperm
  · exact fun hperm => ⟨_, rfl, hperm.append_left _⟩

/-! ## All crashes -/

lemma crash_eq (s : Checkpointed F) (env : SaveEnv F) (done : ℕ) : s.crash env done =
    takeSteps (((s.commitSteps env ++
        (env.sealed.map (Disk.removeSegment s.stem) ++ env.old.map (Disk.removeOld s.stem))).take
          (done - (s.sidecarSteps env).length)))
      (takeSteps ((s.sidecarSteps env).take done) s.disk) := by
  rw [crash, saveSteps_eq, List.take_append, takeSteps_append]

/-- A memory is stored and saved, and then used with success. -/
def useSaved : List (Event ℚ) :=
  [.append (.putPayload ⟨7, 0, [], 5, 5, "note", "brain", [1], "", [], [], none, none, none, "", 0⟩),
    .save plainSave, .append (.recordOutcome ⟨7, true, 1, 6⟩)]

/-- The successes of the memory after these records. -/
def successes (rs : List (LogRecord ℚ)) : Option ℚ :=
  ((rs.foldl (fun ctx r => applyOp r.2.2 ctx) ApplyCtx.empty).states 7).map (·.utilityAlpha)

end Checkpointed

end ChittaField
