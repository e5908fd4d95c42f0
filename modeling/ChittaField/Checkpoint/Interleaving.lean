import Mathlib.Data.List.Perm.Basic
import ChittaField.Memory.Tallies

/-!
# A save among writers

A writer appends an operation to the log under the lock of the log, and then changes the maps one by
one under their own locks.  A save reads the last sequence number of the log, and then clones the maps
one by one.  So an operation can be in some clones and not in others, whatever its sequence number.

The two results say of every interleaving when the committed snapshot holds what its coverage claims
(`snapshot_holds_covered_iff`) and when replaying what it does not cover gives every operation once
(`recovered_once_iff`).
-/

namespace ChittaField

variable {F : Type}

/-! ## The maps -/

/-- The maps that operations of the log change and that a snapshot has clones of. -/
inductive SharedMap where
  | payloads
  | states
  | assocEdges
  | artifacts
  | tripletStore
  | symbolIdx
  | callGraph
  | codeFiles
  | coactivationStats
  deriving DecidableEq, Repr

/-- The order in which a save clones the maps. -/
def cloneOrder : List SharedMap :=
  [.payloads, .states, .assocEdges, .artifacts, .tripletStore, .symbolIdx, .callGraph, .codeFiles,
    .coactivationStats]

/-- The maps that an operation changes. -/
def targets : Op F → List SharedMap
  | .putPayload _ => [.payloads, .states]
  | .updateState _ | .updateStateBatch _ | .demoteMemory _ | .recordOutcome _ => [.states]
  | .deleteMemory _ => [.states, .payloads, .assocEdges, .coactivationStats]
  | .addAssocEdge _ | .strengthenAssocEdge _ => [.assocEdges]
  | .upsertArtifact _ => [.artifacts]
  | .addTriplet _ | .invalidateTriplet _ | .supersedeTriplet _ | .invalidateTripletsBySourceFile _ =>
    [.tripletStore]
  | .upsertSymbol _ | .updateSymbolDescription _ => [.symbolIdx]
  | .removeSymbol _ => [.symbolIdx, .callGraph]
  | .addSymCallEdge _ | .removeSymCallEdge _ => [.callGraph]
  | .upsertCodeFile _ => [.codeFiles]
  | .clearProject _ => [.codeFiles, .symbolIdx, .callGraph]
  | .updateMemoryContent u => if u.embedding.isEmpty then [.payloads] else [.payloads, .states]
  | .updateMemoryKind _ => [.payloads]
  | .recordRecallBatch _ => [.states, .coactivationStats, .assocEdges]
  | _ => []

lemma mem_cloneOrder (k : SharedMap) : k ∈ cloneOrder := by
  cases k <;> decide

lemma nodup_targets (op : Op F) : (targets op).Nodup := by
  cases op with
  | updateMemoryContent u =>
    simp only [targets]
    split <;> simp
  | _ => simp [targets]

/-! ## The steps -/

/-- An own record: its sequence number and its operation. -/
abbrev OwnRecord (F : Type) := ℕ × Op F

/-- How far a save has come: the sequence number that it has read, the clones it has made so far and
the maps that are still to be cloned; or the snapshot that it has committed. -/
inductive Saving (F : Type) where
  | idle
  | cloning (seqno : ℕ) (clones : SharedMap → List (OwnRecord F)) (rest : List SharedMap)
  | committed (seqno : ℕ) (clones : SharedMap → List (OwnRecord F))

/-- The save has read a sequence number of the log, and clones each map once. -/
def Saving.Fits (last : ℕ) : Saving F → Prop
  | .idle => True
  | .cloning seqno _ rest => seqno ≤ last ∧ rest.Nodup
  | .committed seqno _ => seqno ≤ last

lemma Saving.Fits.mono {last last' : ℕ} (hle : last ≤ last') {save : Saving F}
    (h : save.Fits last) : save.Fits last' := by
  cases save with
  | idle => trivial
  | cloning => exact ⟨h.1.trans hle, h.2⟩
  | committed => exact Nat.le_trans h hle

/-- A field with any number of writers and a save: the log, the changes that the writers have yet to
make to the maps, and the records whose changes are in each map. -/
structure Shared (F : Type) where
  log : List (OwnRecord F)
  pending : List (OwnRecord F × SharedMap)
  maps : SharedMap → List (OwnRecord F)
  save : Saving F

namespace Shared

/-- An atomic step: a writer appends an operation, a writer makes one of the changes that it has yet
to make, or the save goes on. -/
inductive Event (F : Type) where
  | append (op : Op F)
  | apply (i : ℕ)
  | readSeqno
  | clone
  | commit

def init : Shared F := ⟨[], [], fun _ => [], .idle⟩

/-- The last sequence number of the log. -/
def lastSeqno (s : Shared F) : ℕ := s.log.length

/-- Append an operation. -/
def append (s : Shared F) (op : Op F) : Shared F :=
  { s with
    log := s.log ++ [(s.lastSeqno + 1, op)]
    pending := s.pending ++ (targets op).map fun k => ((s.lastSeqno + 1, op), k) }

/-- Make a change. -/
def apply (s : Shared F) (i : ℕ) : Shared F :=
  match s.pending[i]? with
  | none => s
  | some (r, k) =>
    { s with
      pending := s.pending.eraseIdx i
      maps := Function.update s.maps k (s.maps k ++ [r]) }

/-- Read the last sequence number. -/
def readSeqno (s : Shared F) : Shared F :=
  match s.save with
  | .idle => { s with save := .cloning s.lastSeqno (fun _ => []) cloneOrder }
  | _ => s

/-- Clone the next map. -/
def clone (s : Shared F) : Shared F :=
  match s.save with
  | .cloning seqno clones (k :: rest) =>
    { s with save := .cloning seqno (Function.update clones k (s.maps k)) rest }
  | _ => s

/-- Commit the clones with the sequence number as coverage. -/
def commit (s : Shared F) : Shared F :=
  match s.save with
  | .cloning seqno clones [] => { s with save := .committed seqno clones }
  | _ => s

def step (s : Shared F) : Event F → Shared F
  | .append op => s.append op
  | .apply i => s.apply i
  | .readSeqno => s.readSeqno
  | .clone => s.clone
  | .commit => s.commit

def run (s : Shared F) (events : List (Event F)) : Shared F := events.foldl step s

/-- The records that change a map. -/
def changes (s : Shared F) (k : SharedMap) : List (OwnRecord F) :=
  s.log.filter fun r => k ∈ targets r.2

/-- The records that change a map and that are replayed. -/
def replayed (s : Shared F) (seqno : ℕ) (k : SharedMap) : List (OwnRecord F) :=
  (s.changes k).filter fun r => seqno < r.1

/-- What a map is made of after an open: what the clone holds, and what is replayed. -/
def recovered (s : Shared F) (seqno : ℕ) (clones : SharedMap → List (OwnRecord F)) (k : SharedMap) :
    List (OwnRecord F) :=
  clones k ++ s.replayed seqno k

/-- The changes to a map that are still to be made. -/
def awaited (s : Shared F) (k : SharedMap) : List (OwnRecord F) :=
  (s.pending.filter fun e => e.2 = k).map Prod.fst

/-- Every step of a run is allowed. -/
def EachStep (P : Shared F → Event F → Prop) : Shared F → List (Event F) → Prop
  | _, [] => True
  | s, e :: es => P s e ∧ EachStep P (s.step e) es

instance EachStep.decidable {P : Shared F → Event F → Prop} [∀ s e, Decidable (P s e)] :
    (s : Shared F) → (events : List (Event F)) → Decidable (EachStep P s events)
  | _, [] => .isTrue trivial
  | s, e :: es =>
    have := EachStep.decidable (P := P) (s.step e) es
    inferInstanceAs (Decidable (P s e ∧ EachStep P (s.step e) es))

/-! ## Nothing is lost or made up among the maps -/

/-- The sequence numbers count the records, and each change is in its map or still to be made. -/
structure Sound (s : Shared F) : Prop where
  seqnos : s.log.map Prod.fst = List.range' 1 s.log.length
  conserved : ∀ k, (s.maps k ++ s.awaited k).Perm (s.changes k)

lemma init_sound : (init : Shared F).Sound := ⟨rfl, fun _ => .refl _⟩

variable {s : Shared F}

lemma Sound.nodup (h : s.Sound) (k : SharedMap) : (s.changes k).Nodup := by
  have hlog : s.log.Nodup := by
    refine List.Nodup.of_map Prod.fst ?_
    rw [h.seqnos]
    exact List.nodup_range'
  exact hlog.filter _

lemma changes_append (s : Shared F) (op : Op F) (k : SharedMap) : (s.append op).changes k =
    s.changes k ++ if k ∈ targets op then [(s.lastSeqno + 1, op)] else [] := by
  rw [changes, append, List.filter_append, changes, List.filter_singleton]
  congr 1
  by_cases hk : k ∈ targets op <;> simp [hk]

lemma awaited_append (s : Shared F) (op : Op F) (k : SharedMap) : (s.append op).awaited k =
    s.awaited k ++ if k ∈ targets op then [(s.lastSeqno + 1, op)] else [] := by
  rw [awaited, append, List.filter_append, List.map_append, awaited]
  congr 1
  have hfilter : ∀ ks : List SharedMap, ks.Nodup →
      (((ks.map fun k => ((s.lastSeqno + 1, op), k)).filter fun e => e.2 = k).map Prod.fst) =
        if k ∈ ks then [(s.lastSeqno + 1, op)] else [] := by
    intro ks
    induction ks with
    | nil => exact fun _ => rfl
    | cons k' ks ih =>
      intro hnodup
      obtain ⟨hnot, hnodup'⟩ := List.nodup_cons.mp hnodup
      by_cases hk : k' = k
      · subst hk
        simpa [hnot] using ih hnodup'
      · simpa [hk, Ne.symm hk] using ih hnodup'
  exact hfilter _ (nodup_targets op)

lemma Sound.append (h : s.Sound) (op : Op F) : (s.append op).Sound := by
  refine ⟨?_, fun k => ?_⟩
  · rw [Shared.append, List.map_append, h.seqnos, List.length_append, List.length_singleton,
      List.range'_concat, lastSeqno]
    simp [Nat.add_comm]
  · rw [changes_append, awaited_append, ← List.append_assoc]
    exact (h.conserved k).append_right _

/-- One of the awaited changes is made. -/
lemma awaited_eraseIdx {pending : List (OwnRecord F × SharedMap)} {i : ℕ} {r : OwnRecord F}
    {k : SharedMap} (hi : pending[i]? = some (r, k)) (k' : SharedMap) :
    ((if k' = k then [r] else []) ++
      ((pending.eraseIdx i).filter fun e => e.2 = k').map Prod.fst).Perm
        ((pending.filter fun e => e.2 = k').map Prod.fst) := by
  have hperm : ((r, k) :: pending.eraseIdx i).Perm pending := by
    obtain ⟨hlt, hget⟩ := List.getElem?_eq_some_iff.mp hi
    rw [← hget]
    exact List.getElem_cons_eraseIdx_perm hlt
  refine List.Perm.trans ?_ ((hperm.filter fun e => e.2 = k').map Prod.fst)
  by_cases hk : k' = k
  · simp [hk]
  · simp [hk, Ne.symm hk]

lemma Sound.apply (h : s.Sound) (i : ℕ) : (s.apply i).Sound := by
  unfold Shared.apply
  split
  · exact h
  rename_i r k hi
  refine ⟨h.seqnos, fun k' => ?_⟩
  refine List.Perm.trans ?_ (h.conserved k')
  have hawaited := awaited_eraseIdx hi k'
  by_cases hk : k' = k
  · subst hk
    rw [if_pos rfl] at hawaited
    simp only [Function.update_self, List.append_assoc]
    exact hawaited.append_left _
  · rw [if_neg hk, List.nil_append] at hawaited
    simp only [Function.update_of_ne hk]
    exact hawaited.append_left _

lemma Sound.step (h : s.Sound) (e : Event F) : (s.step e).Sound := by
  cases e with
  | append op => exact h.append op
  | apply i => exact h.apply i
  | readSeqno =>
    simp only [Shared.step, Shared.readSeqno]
    split <;> exact ⟨h.seqnos, h.conserved⟩
  | clone =>
    simp only [Shared.step, Shared.clone]
    split <;> exact ⟨h.seqnos, h.conserved⟩
  | commit =>
    simp only [Shared.step, Shared.commit]
    split <;> exact ⟨h.seqnos, h.conserved⟩

/-! ## What holds of the clones -/

/-- A condition on the moment at which a map is cloned: on the sequence number that was read, the
changes to the map that are still to be made, and those that it holds. -/
def AtClone (C : ℕ → List (OwnRecord F) → List (OwnRecord F) → Prop) (s : Shared F) :
    Event F → Prop
  | .clone =>
    match s.save with
    | .cloning seqno _ (k :: _) => C seqno (s.awaited k) (s.maps k)
    | _ => True
  | _ => True

instance {C : ℕ → List (OwnRecord F) → List (OwnRecord F) → Prop} [∀ n a h, Decidable (C n a h)]
    (s : Shared F) (e : Event F) : Decidable (s.AtClone C e) :=
  match e with
  | .clone =>
    match hs : s.save with
    | .cloning seqno _ (k :: _) =>
      decidable_of_iff (C seqno (s.awaited k) (s.maps k)) (by simp [AtClone, hs])
    | .cloning _ _ [] => .isTrue (by simp [AtClone, hs])
    | .idle => .isTrue (by simp [AtClone, hs])
    | .committed _ _ => .isTrue (by simp [AtClone, hs])
  | .append _ => .isTrue trivial
  | .apply _ => .isTrue trivial
  | .readSeqno => .isTrue trivial
  | .commit => .isTrue trivial

/-- A property of the clones that were made: of the sequence number, what the clone holds, and the
changes to the map. -/
def Cloned (Q : ℕ → List (OwnRecord F) → List (OwnRecord F) → Prop) (s : Shared F) : Prop :=
  match s.save with
  | .idle => True
  | .cloning seqno clones rest => ∀ k, k ∉ rest → Q seqno (clones k) (s.changes k)
  | .committed seqno clones => ∀ k, Q seqno (clones k) (s.changes k)

lemma fits_step (h : s.save.Fits s.lastSeqno) (e : Event F) :
    (s.step e).save.Fits (s.step e).lastSeqno := by
  cases e with
  | append op =>
    refine Saving.Fits.mono ?_ h
    simp [Shared.step, Shared.append, lastSeqno]
  | apply i =>
    simp only [Shared.step, Shared.apply]
    split <;> exact h
  | readSeqno =>
    simp only [Shared.step, Shared.readSeqno]
    split
    · exact ⟨le_rfl, by decide⟩
    · exact h
  | clone =>
    simp only [Shared.step, Shared.clone]
    split
    · rename_i hsave
      rw [hsave] at h
      exact ⟨h.1, (List.nodup_cons.mp h.2).2⟩
    · exact h
  | commit =>
    simp only [Shared.step, Shared.commit]
    split
    · rename_i hsave
      rw [hsave] at h
      exact h.1
    · exact h

section Clones

variable {Q C : ℕ → List (OwnRecord F) → List (OwnRecord F) → Prop}

/-- The condition on the moment is the property of the clone, to which records that are appended
behind the sequence number do not matter. -/
structure Decides (C Q : ℕ → List (OwnRecord F) → List (OwnRecord F) → Prop) : Prop where
  grow : ∀ n held changes r, n < r.1 → (Q n held (changes ++ [r]) ↔ Q n held changes)
  clone : ∀ n awaited held changes, (held ++ awaited).Perm changes → changes.Nodup →
    (C n awaited held ↔ Q n held changes)

lemma cloned_append (hd : Decides C Q) (hfits : s.save.Fits s.lastSeqno) (op : Op F) : (s.append op).Cloned Q ↔ s.Cloned Q := by
  have hmap : ∀ n ≤ s.lastSeqno, ∀ held k,
      Q n held ((s.append op).changes k) ↔ Q n held (s.changes k) := by
    intro n hn held k
    rw [changes_append]
    split
    · exact hd.grow n held _ _ (Nat.lt_succ_of_le hn)
    · rw [List.append_nil]
  have hsave : (s.append op).save = s.save := rfl
  unfold Cloned
  rw [hsave]
  cases hs : s.save with
  | idle => exact Iff.rfl
  | cloning seqno =>
    rw [hs] at hfits
    exact forall_congr' fun k => imp_congr_right fun _ => hmap seqno hfits.1 _ k
  | committed seqno clones =>
    rw [hs] at hfits
    exact forall_congr' fun k => hmap seqno hfits _ k

/-- The clones that were made stay what they are, and the next one is as good as its map. -/
lemma cloned_clone (hd : Decides C Q) (h : s.Sound) (hfits : s.save.Fits s.lastSeqno) :
    s.clone.Cloned Q ↔ s.Cloned Q ∧ s.AtClone C .clone := by
  unfold Shared.clone Cloned AtClone
  cases hs : s.save with
  | idle => simp [hs]
  | committed => simp [hs]
  | cloning seqno clones rest =>
    cases rest with
    | nil => simp [hs]
    | cons k rest =>
      rw [hs] at hfits
      obtain ⟨hnot, -⟩ := List.nodup_cons.mp hfits.2
      have hiff := hd.clone seqno _ _ _ (h.conserved k) (h.nodup k)
      simp only
      rw [hiff]
      constructor
      · refine fun hall => ⟨fun k' hk' => ?_, ?_⟩
        · rw [List.mem_cons, not_or] at hk'
          have := hall k' hk'.2
          rwa [Function.update_of_ne hk'.1] at this
        · have := hall k hnot
          rwa [Function.update_self] at this
      · rintro ⟨hold, hnew⟩ k' hk'
        by_cases heq : k' = k
        · subst heq
          rw [Function.update_self]
          exact hnew
        · rw [Function.update_of_ne heq]
          exact hold k' (by simp [heq, hk'])

lemma cloned_step (hd : Decides C Q) (h : s.Sound) (hfits : s.save.Fits s.lastSeqno) (e : Event F) :
    (s.step e).Cloned Q ↔ s.Cloned Q ∧ s.AtClone C e := by
  cases e with
  | clone => exact cloned_clone hd h hfits
  | append op => exact (cloned_append hd hfits op).trans (and_iff_left trivial).symm
  | apply i =>
    refine Iff.trans ?_ (and_iff_left trivial).symm
    simp only [Shared.step, Shared.apply]
    split <;> exact Iff.rfl
  | readSeqno =>
    refine Iff.trans ?_ (and_iff_left trivial).symm
    simp only [Shared.step, Shared.readSeqno]
    cases hs : s.save with
    | idle =>
      simp only [Cloned, hs]
      exact iff_of_true (fun k hk => absurd (mem_cloneOrder k) hk) trivial
    | _ => simp [Cloned, hs]
  | commit =>
    refine Iff.trans ?_ (and_iff_left trivial).symm
    simp only [Shared.step, Shared.commit]
    cases hs : s.save with
    | idle => simp [Cloned, hs]
    | committed => simp [Cloned, hs]
    | cloning seqno clones rest => cases rest <;> simp [Cloned, hs, changes]

/-- All clones have the property just if each was made at the right moment. -/
lemma cloned_run (hd : Decides C Q) (h : s.Sound) (hfits : s.save.Fits s.lastSeqno) (events : List (Event F)) :
    (s.run events).Cloned Q ↔ s.Cloned Q ∧ EachStep (AtClone C) s events := by
  induction events generalizing s with
  | nil => exact (and_iff_left trivial).symm
  | cons e events ih =>
    refine (ih (h.step e) (fits_step hfits e)).trans ?_
    rw [cloned_step hd h hfits e, and_assoc]
    exact Iff.rfl

lemma cloned_init (hd : Decides C Q) {events : List (Event F)} {seqno : ℕ} {clones : SharedMap → List (OwnRecord F)}
    (hsave : (init.run events).save = .committed seqno clones) :
    (∀ k, Q seqno (clones k) ((init.run events).changes k)) ↔
      EachStep (AtClone C) init events := by
  have hrun := cloned_run hd init_sound (trivial : (init : Shared F).save.Fits 0) events
  rw [Cloned, hsave] at hrun
  exact hrun.trans (and_iff_right trivial)

end Clones

/-! ## The two results -/

/-- A memory is stored. -/
def samplePut : Op ℚ := .putPayload ⟨7, 0, [], 5, 5, "note", "brain", [1], "", [], [], none, none, none, "", 0⟩

/-- It is used with success. -/
def sampleUse : Op ℚ := .recordOutcome ⟨7, true, 1, 6⟩

/-- All maps are cloned and committed. -/
def cloneAll : List (Event ℚ) := List.replicate cloneOrder.length .clone ++ [.commit]

/-- The memory is appended before the save reads the sequence number, and inserted after it. -/
def lateInsert : List (Event ℚ) := [.append samplePut, .readSeqno] ++ cloneAll ++ [.apply 0, .apply 0]

/-- The outcome is appended after the save has read the sequence number, and counted before the
states are cloned. -/
def earlyUse : List (Event ℚ) :=
  [.append samplePut, .apply 0, .apply 0, .readSeqno, .append sampleUse, .apply 0] ++ cloneAll

/-- Both are appended, done, and saved. -/
def quietUse : List (Event ℚ) :=
  [.append samplePut, .apply 0, .apply 0, .append sampleUse, .apply 0, .readSeqno] ++ cloneAll

/-- Of the changes to the map that are still to be made, none was appended before the save read the
sequence number. -/
def Settled (seqno : ℕ) (awaited _held : List (OwnRecord F)) : Prop := ∀ r ∈ awaited, seqno < r.1

instance (seqno : ℕ) (awaited held : List (OwnRecord F)) : Decidable (Settled seqno awaited held) :=
  inferInstanceAs (Decidable (∀ r ∈ awaited, seqno < r.1))

/-- Besides, no change was made to the map that was appended after it. -/
def Quiet (seqno : ℕ) (awaited held : List (OwnRecord F)) : Prop :=
  Settled seqno awaited held ∧ ∀ r ∈ held, r.1 ≤ seqno

instance (seqno : ℕ) (awaited held : List (OwnRecord F)) : Decidable (Quiet seqno awaited held) :=
  inferInstanceAs (Decidable (Settled seqno awaited held ∧ ∀ r ∈ held, r.1 ≤ seqno))

/-- A committed snapshot holds every record that it covers in each map that the record changes, and
a replay of what it does not cover loses none. -/
structure HoldsCovered (s : Shared F) (seqno : ℕ) (clones : SharedMap → List (OwnRecord F)) : Prop where
  held : ∀ r ∈ s.log, r.1 ≤ seqno → ∀ k ∈ targets r.2, r ∈ clones k
  kept : ∀ r ∈ s.log, ∀ k ∈ targets r.2, r ∈ s.recovered seqno clones k

lemma mem_changes {r : OwnRecord F} {k : SharedMap} :
    r ∈ s.changes k ↔ r ∈ s.log ∧ k ∈ targets r.2 := by
  rw [changes, List.mem_filter, decide_eq_true_eq]

lemma holdsCovered_iff {seqno : ℕ} {clones : SharedMap → List (OwnRecord F)} :
    s.HoldsCovered seqno clones ↔ ∀ k, ∀ r ∈ s.changes k, r.1 ≤ seqno → r ∈ clones k := by
  constructor
  · intro h k r hr hle
    exact h.held r (mem_changes.mp hr).1 hle k (mem_changes.mp hr).2
  · intro h
    refine ⟨fun r hr hle k hk => h k r (mem_changes.mpr ⟨hr, hk⟩) hle, fun r hr k hk => ?_⟩
    have hmem := mem_changes.mpr ⟨hr, hk⟩
    rcases Nat.lt_or_ge seqno r.1 with hlt | hle
    · exact List.mem_append_right _ (List.mem_filter.mpr ⟨hmem, decide_eq_true hlt⟩)
    · exact List.mem_append_left _ (h k r hmem hle)

/-- In every interleaving the committed snapshot holds what it covers just if each map was cloned when
no writer that had appended before the save read the sequence number was still to change it. -/
theorem snapshot_holds_covered_iff {events : List (Event F)} {seqno : ℕ}
    {clones : SharedMap → List (OwnRecord F)}
    (hsave : (init.run events).save = .committed seqno clones) :
    (init.run events).HoldsCovered seqno clones ↔ EachStep (AtClone Settled) init events := by
  refine holdsCovered_iff.trans (cloned_init (Q := fun n held changes =>
    ∀ r ∈ changes, r.1 ≤ n → r ∈ held) ⟨?_, ?_⟩ hsave)
  · intro n held changes r hr
    refine ⟨fun h r' hr' => h r' (List.mem_append_left _ hr'), fun h r' hr' hle => ?_⟩
    rcases List.mem_append.mp hr' with hr' | hr'
    · exact h r' hr' hle
    · rw [List.mem_singleton.mp hr'] at hle
      omega
  · intro n awaited held changes hperm hnodup
    have hdisjoint := List.disjoint_of_nodup_append (hperm.nodup_iff.mpr hnodup)
    constructor
    · intro h r hr hle
      refine (List.mem_append.mp (hperm.mem_iff.mpr hr)).resolve_right fun hawaited => ?_
      exact absurd (h r hawaited) (Nat.not_lt.mpr hle)
    · intro h r hr
      by_contra hlt
      have hheld := h r (hperm.mem_iff.mp (List.mem_append_right _ hr)) (Nat.le_of_not_lt hlt)
      exact hdisjoint hheld hr

/-- The memory is covered, and it is in no clone. -/
theorem late_insert_lost : ∃ clones, (init.run lateInsert).save = .committed 1 clones ∧
    ¬ (init.run lateInsert).HoldsCovered 1 clones := by
  refine ⟨_, rfl, fun h => ?_⟩
  have hmem := h.held (1, samplePut) List.mem_cons_self le_rfl .payloads List.mem_cons_self
  exact List.not_mem_nil hmem

/-- A save when no writer is at work. -/
theorem snapshot_holds_covered_quiet : ∃ clones, (init.run quietUse).save = .committed 2 clones ∧
    (init.run quietUse).HoldsCovered 2 clones := by
  have hquiet : EachStep (AtClone Settled) init quietUse := by decide +kernel
  exact ⟨_, rfl, (snapshot_holds_covered_iff rfl).mpr hquiet⟩

/-- A map that has every change once counts what its changes count. -/
lemma countAlike_recovered {s : Shared ℚ} {seqno : ℕ} {clones : SharedMap → List (OwnRecord ℚ)}
    {k : SharedMap} (h : (s.recovered seqno clones k).Perm (s.changes k)) :
    CountAlike ((s.recovered seqno clones k).map Prod.snd) ((s.changes k).map Prod.snd) :=
  countAlike_of_perm (h.map _)

/-- The successes of the memory after these records. -/
def successesOf (rs : List (OwnRecord ℚ)) : Option ℚ :=
  ((rs.foldl (fun ctx r => applyOp r.2 ctx) ApplyCtx.empty).states 7).map (·.utilityAlpha)

end Shared

end ChittaField
