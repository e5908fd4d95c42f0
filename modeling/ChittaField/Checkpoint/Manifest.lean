import Mathlib.Data.List.Destutter
import ChittaField.Lib.OrderedMap
import ChittaField.Log.Merge

/-!
# The manifest

A manifest records the snapshot families that are committed, one for each writer.  There are two
slots for it.  A writer loads both, joins them, puts its own family in, and writes the result to the
slot that the parity of the generation tells.

When two writers do so at once, the one that commits last may overwrite what the other committed:
both have counted up the same generation and write to the same slot, and the join over both slots
cannot bring back what is in neither.  `commits_merge_iff` says when this happens.
-/

namespace ChittaField

/-- A file of a snapshot family. -/
structure FileRef where
  name : FileName
  sizeBytes : ℕ
  deriving DecidableEq, Repr

/-- A committed snapshot family: the snapshot with its sidecars, and what it covers. -/
structure SnapshotFamily extends CheckpointSet where
  snapshot : FileRef
  sidecars : List FileRef
  cortical : Option FileRef

/-- A manifest. -/
structure Manifest where
  generation : ℕ
  lastSeqno : ℕ
  segments : List SegmentInfo
  checkpoints : Option SnapshotFamily
  families : OrderedMap (List Char) SnapshotFamily

/-- The two places of a manifest. -/
inductive Slot where
  | one
  | two
  deriving DecidableEq, Repr

namespace Manifest

def newEmpty : Manifest := ⟨0, 0, [], none, .empty⟩

/-- The slot that a generation is written to. -/
def slot (m : Manifest) : Slot := if m.generation % 2 = 0 then .one else .two

/-- Of two families of one writer the one with the larger sequence number is kept. -/
def keepFamily (existing fam : SnapshotFamily) : Bool := fam.snapshotSeqno ≤ existing.snapshotSeqno

/-- Join what the slots hold: the fields of the higher generation, with the families of both. -/
def joinSlots : Option Manifest → Option Manifest → Option Manifest
  | none, none => none
  | some m, none => some m
  | none, some m => some m
  | some a, some b =>
    let (newer, older) := if b.generation ≤ a.generation then (a, b) else (b, a)
    some { newer with families := newer.families.join keepFamily older.families }

/-- The committed families: those of all writers, and the latest. -/
def allFamilies (m : Manifest) : List SnapshotFamily := m.families.values ++ m.checkpoints.toList

/-- The files of a family are there in the recorded sizes. -/
def validates (size : FileName → Option ℕ) (cp : SnapshotFamily) : Bool :=
  (cp.snapshot :: cp.sidecars).all fun file => size file.name = some file.sizeBytes

/-- The snapshot of the best family that validates.  Of families next to each other with one
snapshot only the first is asked. -/
def validatedSnapshot (size : FileName → Option ℕ) (m : Manifest) : Option FileName :=
  let candidates := m.allFamilies.insertionSort fun a b => b.snapshotSeqno ≤ a.snapshotSeqno
  ((candidates.destutter fun a b => a.snapshot.name ≠ b.snapshot.name).find?
    (validates size)).map fun cp => cp.snapshot.name

/-- The next generation, with the family of a writer. -/
def commit (m : Manifest) (key : List Char) (family : SnapshotFamily) : Manifest where
  generation := m.generation + 1
  lastSeqno := family.snapshotSeqno
  segments := family.segments
  checkpoints := some family
  families := m.families.insert key family

end Manifest

/-- The manifest files of a data directory.  A slot that cannot be read holds nothing. -/
structure ManifestDir where
  slots : Slot → Option Manifest
  tmp : Slot → Option Manifest

/-- Load the manifest. -/
def ManifestDir.load (dir : ManifestDir) : Option Manifest :=
  Manifest.joinSlots (dir.slots .one) (dir.slots .two)

/-- Save a manifest to its slot. -/
def ManifestDir.save (dir : ManifestDir) (m : Manifest) : ManifestDir :=
  { dir with slots := Function.update dir.slots m.slot (some m) }

/-- The family of a writer that a manifest records. -/
def familyOf (m : Option Manifest) (key : List Char) : Option SnapshotFamily :=
  m.bind (·.families.get? key)

/-- The generation of a manifest, if there is one. -/
def generationOf (m : Option Manifest) : ℕ := m.elim 0 Manifest.generation

namespace Manifest

lemma generationOf_joinSlots (a b : Option Manifest) :
    generationOf (joinSlots a b) = max (generationOf a) (generationOf b) := by
  cases a with
  | none => cases b <;> simp [joinSlots, generationOf]
  | some a =>
    cases b with
    | none => simp [joinSlots, generationOf]
    | some b =>
      by_cases h : b.generation ≤ a.generation
      · simp [joinSlots, generationOf, h]
      · simp [joinSlots, generationOf, h, Nat.le_of_lt (Nat.lt_of_not_le h)]

/-- The family of a writer after a join, by its families in both slots. -/
abbrev joinFamily : Option SnapshotFamily → Option SnapshotFamily → Option SnapshotFamily :=
  OrderedMap.joined keepFamily

/-- The slot of the higher generation takes the families of the other one, whichever it is. -/
lemma joinSlots_comm {a b : Option Manifest} (h : generationOf b < generationOf a) :
    joinSlots b a = joinSlots a b := by
  cases a with
  | none => exact absurd h (Nat.not_lt_zero _)
  | some a =>
    cases b with
    | none => rfl
    | some b =>
      have hle : b.generation ≤ a.generation := Nat.le_of_lt h
      have hnle : ¬a.generation ≤ b.generation := Nat.not_le_of_lt h
      simp only [joinSlots, if_pos hle, if_neg hnle]

lemma familyOf_joinSlots_some {a : Manifest} {b : Option Manifest} (h : generationOf b < a.generation)
    (key : List Char) : familyOf (joinSlots (some a) b) key =
      joinFamily (a.families.get? key) (familyOf b key) := by
  cases b with
  | none => cases hget : a.families.get? key <;> simp [joinSlots, familyOf, OrderedMap.joined, hget]
  | some b =>
    have hle : b.generation ≤ a.generation := Nat.le_of_lt h
    simp [joinSlots, familyOf, hle, OrderedMap.get?_join]

/-- The join of two manifests tells of each writer what one of them takes from the other. -/
lemma familyOf_joinSlots (a b : Option Manifest) (key : List Char) :
    familyOf (joinSlots a b) key = joinFamily (familyOf a key) (familyOf b key) ∨
      familyOf (joinSlots a b) key = joinFamily (familyOf b key) (familyOf a key) := by
  cases a with
  | none => cases b <;> simp [joinSlots, familyOf, OrderedMap.joined]
  | some a =>
    cases b with
    | none => cases hget : a.families.get? key <;> simp [joinSlots, familyOf, OrderedMap.joined, hget]
    | some b =>
      by_cases hle : b.generation ≤ a.generation
      · simp [joinSlots, familyOf, hle, OrderedMap.get?_join]
      · simp [joinSlots, familyOf, hle, OrderedMap.get?_join]

lemma joinFamily_absorb_left (a b : Option SnapshotFamily) :
    joinFamily (joinFamily a b) a = joinFamily a b := by
  cases a with
  | none => cases b <;> rfl
  | some a =>
    cases b with
    | none => simp [OrderedMap.joined, keepFamily]
    | some b =>
      by_cases h : b.snapshotSeqno ≤ a.snapshotSeqno
      · simp [OrderedMap.joined, keepFamily, h]
      · simp [OrderedMap.joined, keepFamily, h, Nat.le_of_lt (Nat.lt_of_not_le h)]

lemma joinFamily_absorb_right (a b : Option SnapshotFamily) :
    joinFamily (joinFamily a b) b = joinFamily a b := by
  cases a with
  | none => cases b <;> simp [OrderedMap.joined, keepFamily]
  | some a =>
    cases b with
    | none => rfl
    | some b =>
      by_cases h : b.snapshotSeqno ≤ a.snapshotSeqno
      · simp [OrderedMap.joined, keepFamily, h]
      · simp [OrderedMap.joined, keepFamily, h]

/-- A slot tells nothing that the join of both does not. -/
lemma joinFamily_load (dir : ManifestDir) (i : Slot) (key : List Char) :
    joinFamily (familyOf dir.load key) (familyOf (dir.slots i) key) = familyOf dir.load key := by
  rcases familyOf_joinSlots (dir.slots .one) (dir.slots .two) key with h | h <;>
    rw [ManifestDir.load, h] <;> cases i <;>
      simp only [joinFamily_absorb_left, joinFamily_absorb_right]

/-- A family that is not older than what the other slot tells is what the join tells. -/
lemma joinFamily_some {f : SnapshotFamily} {b : Option SnapshotFamily}
    (h : ∀ g, b = some g → g.snapshotSeqno ≤ f.snapshotSeqno) : joinFamily (some f) b = some f := by
  cases b with
  | none => rfl
  | some g => simp [OrderedMap.joined, keepFamily, h g rfl]

end Manifest

variable {slots tmp : Slot → Option Manifest}

/-- A manifest of a new generation is joined with the slot that it is not written to. -/
lemma load_update {i j : Slot} (hij : i ≠ j) {m : Manifest}
    (h : generationOf (slots j) < m.generation) :
    ManifestDir.load ⟨Function.update slots i (some m), tmp⟩ =
      Manifest.joinSlots (some m) (slots j) := by
  have hself : Function.update slots i (some m) i = some m := Function.update_self ..
  have hother : Function.update slots i (some m) j = slots j := Function.update_of_ne hij.symm ..
  cases i <;> cases j
  · exact absurd rfl hij
  · simp only [ManifestDir.load, hself, hother]
  · simp only [ManifestDir.load, hself, hother]
    exact Manifest.joinSlots_comm (a := some m) h
  · exact absurd rfl hij

open Manifest in
/-- A manifest of a new generation decides about its own families. -/
lemma familyOf_load_update {i j : Slot} (hij : i ≠ j) {m : Manifest}
    (h : generationOf (slots j) < m.generation) (key : List Char) :
    familyOf (ManifestDir.load ⟨Function.update slots i (some m), tmp⟩) key =
      joinFamily (m.families.get? key) (familyOf (slots j) key) := by
  rw [load_update hij h, familyOf_joinSlots_some h]

/-- A manifest of a new generation is the one that is loaded. -/
lemma generationOf_load_update {i j : Slot} (hij : i ≠ j) {m : Manifest}
    (h : generationOf (slots j) < m.generation) :
    generationOf (ManifestDir.load ⟨Function.update slots i (some m), tmp⟩) = m.generation := by
  rw [load_update hij h, Manifest.generationOf_joinSlots]
  exact max_eq_left h.le

lemma generationOf_slot_le (dir : ManifestDir) (i : Slot) :
    generationOf (dir.slots i) ≤ generationOf dir.load := by
  rw [ManifestDir.load, Manifest.generationOf_joinSlots]
  cases i
  · exact le_max_left _ _
  · exact le_max_right _ _

/-! ## Two writers -/

/-- One of two writers. -/
inductive Saver where
  | left
  | right
  deriving DecidableEq, Repr

def Saver.other : Saver → Saver
  | .left => .right
  | .right => .left

lemma Saver.other_ne (w : Saver) : w.other ≠ w := by cases w <;> exact Saver.noConfusion

@[simp]
lemma Saver.other_other (w : Saver) : w.other.other = w := by cases w <;> rfl

lemma Saver.eq_or_eq_other (v w : Saver) : v = w ∨ v = w.other := by
  cases v <;> cases w <;> simp [Saver.other]

/-- How far a writer is: it reads one slot, reads the other and makes its manifest, writes it to the
temporary file of its slot, and renames that.  The rename fails if the file is gone. -/
inductive SavePhase where
  | start
  | half (one : Option Manifest)
  | loaded (m : Manifest)
  | written (m : Manifest)
  | done
  | failed

/-- What a writer commits: its family, by its instance. -/
structure Commit where
  key : List Char
  family : SnapshotFamily

/-- The manifest that a writer makes from what it has loaded. -/
def Commit.onto (c : Commit) (m : Option Manifest) : Manifest :=
  (m.getD .newEmpty).commit c.key c.family

namespace Commit

variable {c : Commit} {m : Option Manifest}

lemma generation_onto : (c.onto m).generation = generationOf m + 1 := by
  cases m <;> rfl

/-- Two manifests of one generation go to the same slot. -/
lemma slot_onto (c c' : Commit) (m : Option Manifest) : (c.onto m).slot = (c'.onto m).slot := by
  rw [Manifest.slot, Manifest.slot, generation_onto, generation_onto]

/-- The next generation goes to the other slot. -/
lemma slot_onto_ne {m' : Option Manifest} {c' : Commit}
    (h : generationOf m' = generationOf m + 1) : (c.onto m).slot ≠ (c'.onto m').slot := by
  rw [Manifest.slot, Manifest.slot, generation_onto, generation_onto, h]
  rcases Nat.mod_two_eq_zero_or_one (generationOf m + 1) with hmod | hmod
  · rw [if_pos hmod, if_neg (by omega)]
    exact Slot.noConfusion
  · rw [if_neg (by omega), if_pos (by omega)]
    exact Slot.noConfusion

lemma families_onto_self : (c.onto m).families.get? c.key = some c.family :=
  OrderedMap.get?_insert_self

lemma families_onto_of_ne {key : List Char} (h : c.key ≠ key) :
    (c.onto m).families.get? key = familyOf m key := by
  rw [Commit.onto, Manifest.commit, OrderedMap.get?_insert_of_ne h]
  cases m <;> rfl

end Commit

/-- The slot that a manifest is not written to. -/
lemma exists_other_slot (i : Slot) : ∃ j, i ≠ j := by
  cases i
  · exact ⟨.two, Slot.noConfusion⟩
  · exact ⟨.one, Slot.noConfusion⟩

/-- A slot has no newer family than the join of both. -/
lemma seqno_le_load {dir : ManifestDir} {i : Slot} {key : List Char} {g : SnapshotFamily}
    (hg : familyOf (dir.slots i) key = some g) :
    ∃ f, familyOf dir.load key = some f ∧ g.snapshotSeqno ≤ f.snapshotSeqno := by
  have habsorb := Manifest.joinFamily_load dir i key
  rw [hg] at habsorb
  cases hf : familyOf dir.load key with
  | none => simp [hf, OrderedMap.joined] at habsorb
  | some f =>
    refine ⟨f, rfl, ?_⟩
    by_contra hlt
    simp only [hf, OrderedMap.joined, Manifest.keepFamily, hlt, decide_false, Bool.false_eq_true,
      if_false, Option.some.injEq] at habsorb
    exact hlt (habsorb ▸ le_rfl)

/-- What a single writer saves is what it loads. -/
theorem load_save (dir : ManifestDir) (c : Commit)
    (hnewer : ∀ f, familyOf dir.load c.key = some f → f.snapshotSeqno ≤ c.family.snapshotSeqno) :
    (dir.save (c.onto dir.load)).load = some (c.onto dir.load) := by
  obtain ⟨j, hj⟩ := exists_other_slot (c.onto dir.load).slot
  have hgen : generationOf (dir.slots j) < (c.onto dir.load).generation := by
    rw [Commit.generation_onto]
    exact Nat.lt_succ_of_le (generationOf_slot_le dir j)
  -- the families of the other slot are known already
  have hjoin : ∀ o, dir.slots j = some o →
      (c.onto dir.load).families.join Manifest.keepFamily o.families = (c.onto dir.load).families := by
    intro o ho
    refine OrderedMap.ext_get? fun key => ?_
    have hslot : familyOf (dir.slots j) key = o.families.get? key := by rw [ho]; rfl
    rw [OrderedMap.get?_join, ← hslot]
    by_cases hkey : c.key = key
    · subst hkey
      rw [Commit.families_onto_self]
      refine Manifest.joinFamily_some fun g hg => ?_
      obtain ⟨f, hf, hle⟩ := seqno_le_load hg
      exact hle.trans (hnewer f hf)
    · rw [Commit.families_onto_of_ne hkey]
      exact Manifest.joinFamily_load dir j key
  rw [ManifestDir.save, load_update hj hgen]
  cases ho : dir.slots j with
  | none => rfl
  | some o =>
    rw [ho] at hgen
    have hle : o.generation ≤ (c.onto dir.load).generation := Nat.le_of_lt hgen
    simp only [Manifest.joinSlots, if_pos hle, hjoin o ho]

/-- The files, and how far both writers are. -/
structure Savers where
  dir : ManifestDir
  phase : Saver → SavePhase

namespace Savers

/-- No writer has begun. -/
def init (dir : ManifestDir) : Savers := ⟨dir, fun _ => .start⟩

/-- The writer goes on. -/
def goOn (s : Savers) (w : Saver) (p : SavePhase) : Saver → SavePhase := Function.update s.phase w p

/-- The next step of a writer. -/
def step (commits : Saver → Commit) (w : Saver) (s : Savers) : Savers :=
  match s.phase w with
  | .start => { s with phase := s.goOn w (.half (s.dir.slots .one)) }
  | .half one =>
    let m := (commits w).onto (Manifest.joinSlots one (s.dir.slots .two))
    { s with phase := s.goOn w (.loaded m) }
  | .loaded m =>
    ⟨{ s.dir with tmp := Function.update s.dir.tmp m.slot (some m) }, s.goOn w (.written m)⟩
  | .written m =>
    match s.dir.tmp m.slot with
    | none => { s with phase := s.goOn w .failed }
    | some t =>
      ⟨⟨Function.update s.dir.slots m.slot (some t), Function.update s.dir.tmp m.slot none⟩,
        s.goOn w .done⟩
  | .done | .failed => s

/-- Let the writers take their steps in the order of a schedule. -/
def run (commits : Saver → Commit) (sched : List Saver) (s : Savers) : Savers :=
  sched.foldl (fun s w => step commits w s) s

/-- The writer has read a slot, and it has not committed since. -/
def hasRead (i : Slot) : SavePhase → Bool
  | .half _ => i = .one
  | .loaded _ => true
  | .written _ => true
  | _ => false

/-- In the run, the writer renames its manifest to a slot after the other has read that slot and
before the other commits. -/
def shadowed (commits : Saver → Commit) (w : Saver) : List Saver → Savers → Bool
  | [], _ => false
  | v :: sched, s =>
    (match s.phase v with
      | .written m => v = w && hasRead m.slot (s.phase v.other)
      | _ => false) || shadowed commits w sched (step commits v s)

/-- Both writers' families are in the manifest. -/
def Merged (commits : Saver → Commit) (s : Savers) : Prop :=
  ∃ m, s.dir.load = some m ∧ ∀ w, m.families.get? (commits w).key = some (commits w).family

variable {commits : Saver → Commit} {dir : ManifestDir} {s : Savers} {v w : Saver}

/-! ### Before the first commit -/

/-- No writer has committed: both make their manifest of what there was. -/
structure Before (commits : Saver → Commit) (dir : ManifestDir) (s : Savers) : Prop where
  slots : s.dir.slots = dir.slots
  phase : ∀ w, s.phase w = .start ∨ s.phase w = .half (dir.slots .one) ∨
    s.phase w = .loaded ((commits w).onto dir.load) ∨
    s.phase w = .written ((commits w).onto dir.load)
  tmp : ∀ w, s.phase w = .written ((commits w).onto dir.load) →
    ∃ v, s.phase v = .written ((commits v).onto dir.load) ∧
      s.dir.tmp ((commits w).onto dir.load).slot = some ((commits v).onto dir.load)

lemma before_init : Before commits dir (init dir) where
  slots := rfl
  phase _ := Or.inl rfl
  tmp _ h := by cases h

/-- A writer that goes on without writing does not disturb the other. -/
lemma Before.goOn (h : Before commits dir s) {p : SavePhase} (hw : ∀ m, s.phase w ≠ .written m)
    (hp : p = .half (dir.slots .one) ∨ p = .loaded ((commits w).onto dir.load)) :
    Before commits dir { s with phase := s.goOn w p } where
  slots := h.slots
  phase v := by
    by_cases hvw : v = w
    · subst hvw
      simp only [Savers.goOn, Function.update_self]
      rcases hp with rfl | rfl <;> simp
    · simp only [Savers.goOn, Function.update_of_ne hvw]
      exact h.phase v
  tmp v hv := by
    have hvw : v ≠ w := by
      rintro rfl
      simp only [Savers.goOn, Function.update_self] at hv
      rcases hp with rfl | rfl <;> cases hv
    simp only [Savers.goOn, Function.update_of_ne hvw] at hv
    obtain ⟨u, hu, htmp⟩ := h.tmp v hv
    have huw : u ≠ w := fun heq => hw _ (heq ▸ hu)
    refine ⟨u, ?_, htmp⟩
    simp only [Savers.goOn, Function.update_of_ne huw]
    exact hu

/-- A step that is not a rename. -/
lemma Before.step (h : Before commits dir s) (hw : ∀ m, s.phase w ≠ .written m) :
    Before commits dir (step commits w s) := by
  rcases h.phase w with hp | hp | hp | hp
  · simp only [Savers.step, hp, h.slots]
    exact h.goOn hw (Or.inl rfl)
  · simp only [Savers.step, hp, h.slots]
    exact h.goOn hw (Or.inr rfl)
  · simp only [Savers.step, hp]
    refine ⟨h.slots, fun v => ?_, fun v _ => ⟨w, by simp [Savers.goOn], ?_⟩⟩
    · by_cases hvw : v = w
      · subst hvw
        simp [Savers.goOn]
      · simp only [Savers.goOn, Function.update_of_ne hvw]
        exact h.phase v
    · rw [Commit.slot_onto (commits v) (commits w)]
      exact Function.update_self ..
  · exact absurd hp (hw _)

/-! ### A writer whose file is gone -/

/-- The other writer has renamed the temporary file, so that this one cannot finish. -/
def Stuck (w : Saver) (s : Savers) : Prop :=
  s.phase w.other = .done ∧
    (s.phase w = .failed ∨ ∃ m, s.phase w = .written m ∧ s.dir.tmp m.slot = none)

lemma Stuck.step (h : Stuck w s) (v : Saver) : Stuck w (step commits v s) := by
  obtain ⟨hother, hw⟩ := h
  rcases v.eq_or_eq_other w with rfl | rfl
  · rcases hw with hw | ⟨m, hw, htmp⟩
    · simp only [Savers.step, hw]
      exact ⟨hother, Or.inl hw⟩
    · simp only [Savers.step, hw, htmp]
      refine ⟨?_, Or.inl (Function.update_self ..)⟩
      exact (Function.update_of_ne v.other_ne ..).trans hother
  · simp only [Savers.step, hother]
    exact ⟨hother, hw⟩

lemma Stuck.not_done (h : Stuck w s) (sched : List Saver) :
    (run commits sched s).phase w ≠ .done := by
  induction sched generalizing s with
  | nil =>
    intro hdone
    rcases h.2 with hw | ⟨m, hw, -⟩ <;> cases hw.symm.trans hdone
  | cons v sched ih => exact ih (h.step v)

/-! ### After the first commit -/

/-- The other writer has committed, and this one is on its way to commit `m`. -/
structure Solo (commits : Saver → Commit) (w : Saver) (slots : Slot → Option Manifest)
    (m : Manifest) (s : Savers) : Prop where
  other : s.phase w.other = .done
  phase : (s.dir.slots = slots ∧
      ((s.phase w = .start ∧ m = (commits w).onto (Manifest.joinSlots (slots .one) (slots .two))) ∨
        (∃ one, s.phase w = .half one ∧
          m = (commits w).onto (Manifest.joinSlots one (slots .two))) ∨
        s.phase w = .loaded m ∨ s.phase w = .written m ∧ s.dir.tmp m.slot = some m)) ∨
    s.dir.slots = Function.update slots m.slot (some m) ∧ s.phase w = .done

lemma Solo.step {slots : Slot → Option Manifest} {m : Manifest} (h : Solo commits w slots m s)
    (v : Saver) : Solo commits w slots m (step commits v s) := by
  rcases v.eq_or_eq_other w with rfl | rfl
  · have hother : ∀ p, s.goOn v p v.other = .done := fun p =>
      (Function.update_of_ne v.other_ne ..).trans h.other
    have hself : ∀ p, s.goOn v p v = p := fun p => Function.update_self ..
    rcases h.phase with ⟨hslots, ⟨hp, hm⟩ | ⟨one, hp, hm⟩ | hp | ⟨hp, htmp⟩⟩ | ⟨hslots, hp⟩
    · simp only [Savers.step, hp, hslots]
      exact ⟨hother _, Or.inl ⟨hslots, Or.inr (Or.inl ⟨_, hself _, hm⟩)⟩⟩
    · simp only [Savers.step, hp, hslots]
      exact ⟨hother _, Or.inl ⟨hslots, Or.inr (Or.inr (Or.inl (hm ▸ hself _)))⟩⟩
    · simp only [Savers.step, hp]
      exact ⟨hother _, Or.inl ⟨hslots, Or.inr (Or.inr (Or.inr ⟨hself _, Function.update_self ..⟩))⟩⟩
    · simp only [Savers.step, hp, htmp, hslots]
      exact ⟨hother _, Or.inr ⟨rfl, hself _⟩⟩
    · simp only [Savers.step, hp]
      exact h
  · simp only [Savers.step, h.other]
    exact h

lemma Solo.run {slots : Slot → Option Manifest} {m : Manifest} (h : Solo commits w slots m s)
    (sched : List Saver) : Solo commits w slots m (run commits sched s) :=
  List.foldlRecOn sched _ h fun _ h v _ => h.step v

/-- A writer that finishes has committed. -/
lemma Solo.slots_of_done {slots : Slot → Option Manifest} {m : Manifest}
    (h : Solo commits w slots m s) (hdone : s.phase w = .done) :
    s.dir.slots = Function.update slots m.slot (some m) := by
  rcases h.phase with ⟨-, ⟨hp, -⟩ | ⟨one, hp, -⟩ | hp | ⟨hp, -⟩⟩ | ⟨hslots, -⟩
  · cases hp.symm.trans hdone
  · cases hp.symm.trans hdone
  · cases hp.symm.trans hdone
  · cases hp.symm.trans hdone
  · exact hslots

/-- The one that commits last shadows nobody's commit but its own. -/
lemma Solo.not_shadowed {slots : Slot → Option Manifest} {m : Manifest}
    (h : Solo commits w slots m s) (u : Saver) (sched : List Saver) :
    shadowed commits u sched s = false := by
  induction sched generalizing s with
  | nil => rfl
  | cons v sched ih =>
    rw [shadowed, ih (h.step v), Bool.or_false]
    rcases v.eq_or_eq_other w with rfl | rfl
    · split
      · rw [h.other]
        simp [hasRead]
      · rfl
    · rw [h.other]

/-! ### What is merged -/

lemma merged_iff : Merged commits s ↔
    ∀ w, familyOf s.dir.load (commits w).key = some (commits w).family := by
  constructor
  · rintro ⟨m, hload, hm⟩ w
    rw [hload]
    exact hm w
  · intro h
    obtain ⟨m, hload, -⟩ := Option.bind_eq_some_iff.mp (h .left)
    refine ⟨m, hload, fun w => ?_⟩
    have hw := h w
    rwa [hload] at hw

/-- The writers have names of their own, and none of them commits an older family than it has
committed before. -/
structure Fresh (commits : Saver → Commit) (dir : ManifestDir) : Prop where
  keys : (commits .left).key ≠ (commits .right).key
  newer : ∀ w i f, familyOf (dir.slots i) (commits w).key = some f →
    f.snapshotSeqno ≤ (commits w).family.snapshotSeqno

lemma Fresh.key_ne (h : Fresh commits dir) (w : Saver) :
    (commits w).key ≠ (commits w.other).key := by
  cases w
  · exact h.keys
  · exact h.keys.symm

/-- Nor is one of the two manifests' families newer, so neither is the one that is loaded. -/
lemma Fresh.load_newer (h : Fresh commits dir) (w : Saver) {f : SnapshotFamily}
    (hf : familyOf dir.load (commits w).key = some f) :
    f.snapshotSeqno ≤ (commits w).family.snapshotSeqno := by
  have hmem : familyOf (dir.slots .one) (commits w).key = some f ∨
      familyOf (dir.slots .two) (commits w).key = some f := by
    rcases Manifest.familyOf_joinSlots (dir.slots .one) (dir.slots .two) (commits w).key with hj | hj
    · exact OrderedMap.joined_mem (hj.symm.trans hf)
    · exact (OrderedMap.joined_mem (hj.symm.trans hf)).symm
  rcases hmem with hf | hf
  · exact h.newer w _ f hf
  · exact h.newer w _ f hf

variable {c m : Manifest}

/-- A commit over the other's commit of the same generation: the other's family is as it was. -/
lemma merged_of_early (hfresh : Fresh commits dir) (w : Saver) (hc : c = (commits w).onto dir.load)
    (hslots : ∀ j, c.slot ≠ j → slots j = dir.slots j) {phase : Saver → SavePhase} :
    Merged commits ⟨⟨Function.update slots c.slot (some c), tmp⟩, phase⟩ ↔
      familyOf dir.load (commits w.other).key = some (commits w.other).family := by
  obtain ⟨j, hj⟩ := exists_other_slot c.slot
  have hgen : generationOf (slots j) < c.generation := by
    rw [hslots j hj, hc, Commit.generation_onto]
    exact Nat.lt_succ_of_le (generationOf_slot_le dir j)
  have hself : familyOf (ManifestDir.load ⟨Function.update slots c.slot (some c), tmp⟩)
      (commits w).key = some (commits w).family := by
    rw [familyOf_load_update hj hgen, hslots j hj, hc, Commit.families_onto_self]
    exact Manifest.joinFamily_some (hfresh.newer w j)
  have hother : familyOf (ManifestDir.load ⟨Function.update slots c.slot (some c), tmp⟩)
      (commits w.other).key = familyOf dir.load (commits w.other).key := by
    rw [familyOf_load_update hj hgen, hslots j hj, hc, Commit.families_onto_of_ne (hfresh.key_ne w)]
    exact Manifest.joinFamily_load dir j _
  rw [merged_iff]
  constructor
  · exact fun h => hother ▸ h w.other
  · intro h v
    rcases v.eq_or_eq_other w with rfl | rfl
    · exact hself
    · exact hother.trans h

/-- A commit of a writer that has seen the other's commit. -/
lemma merged_of_late (hfresh : Fresh commits dir) (w : Saver) (hc : c = (commits w).onto dir.load)
    (hslots : slots = Function.update dir.slots c.slot (some c)) (htmp : Slot → Option Manifest)
    (hm : m = (commits w.other).onto (ManifestDir.load ⟨slots, htmp⟩))
    {phase : Saver → SavePhase} :
    Merged commits ⟨⟨Function.update slots m.slot (some m), tmp⟩, phase⟩ := by
  obtain ⟨j, hj⟩ := exists_other_slot c.slot
  have hcGen : c.generation = generationOf dir.load + 1 := by rw [hc, Commit.generation_onto]
  have hgen : generationOf (dir.slots j) < c.generation := by
    rw [hcGen]
    exact Nat.lt_succ_of_le (generationOf_slot_le dir j)
  -- what the late writer has loaded
  have hload : ∀ key, familyOf (ManifestDir.load ⟨slots, htmp⟩) key =
      Manifest.joinFamily (c.families.get? key) (familyOf (dir.slots j) key) := fun key => by
    rw [hslots, familyOf_load_update hj hgen]
  have hfirst : slots c.slot = some c := by
    rw [hslots]
    exact Function.update_self ..
  have hloadGen : generationOf (ManifestDir.load ⟨slots, htmp⟩) = generationOf dir.load + 1 := by
    rw [hslots, generationOf_load_update hj hgen, hcGen]
  have hslot : m.slot ≠ c.slot := by
    rw [hm, hc]
    exact (Commit.slot_onto_ne hloadGen).symm
  have hmGen : generationOf (slots c.slot) < m.generation := by
    rw [hfirst, generationOf, Option.elim_some, hm, Commit.generation_onto, hloadGen, hcGen]
    exact Nat.lt_succ_self _
  have hwnewer := Manifest.joinFamily_some (hfresh.newer w j)
  rw [merged_iff]
  intro v
  rw [familyOf_load_update hslot hmGen, hfirst]
  rcases v.eq_or_eq_other w with rfl | rfl
  · rw [hm, Commit.families_onto_of_ne (hfresh.key_ne v).symm, hload, hc, Commit.families_onto_self,
      hwnewer]
    refine Manifest.joinFamily_some fun g hg => ?_
    rw [familyOf, Option.bind_some, Commit.families_onto_self, Option.some.injEq] at hg
    exact hg ▸ le_rfl
  · rw [hm, Commit.families_onto_self]
    refine Manifest.joinFamily_some fun g hg => ?_
    rw [familyOf, Option.bind_some, hc, Commit.families_onto_of_ne (hfresh.key_ne w)] at hg
    exact hfresh.load_newer w.other hg

/-! ### Runs -/

/-- The first commit.  The other writer cannot finish any more if it has written its file; else it
will commit a manifest that knows this commit, unless it has read the slot already. -/
lemma Before.commit (h : Before commits dir s) (hc : c = (commits w).onto dir.load)
    (hw : s.phase w = .written c) : Stuck w.other (Savers.step commits w s) ∨
      ∃ slots m, slots = Function.update dir.slots c.slot (some c) ∧
        Solo commits w.other slots m (Savers.step commits w s) ∧
        m = (commits w.other).onto
          (if hasRead c.slot (s.phase w.other) then dir.load else ManifestDir.load ⟨slots, slots⟩) := by
  subst hc
  obtain ⟨v, hv, htmp⟩ := h.tmp w hw
  have hother : ∀ p, s.goOn w p w.other = s.phase w.other := fun p =>
    Function.update_of_ne w.other_ne ..
  have hself : ∀ p, s.goOn w p w.other.other = p := fun p => by
    rw [Saver.other_other]
    exact Function.update_self ..
  simp only [Savers.step, hw, htmp]
  by_cases hwritten : s.phase w.other = .written ((commits w.other).onto dir.load)
  · refine Or.inl ⟨hself _, Or.inr ⟨_, (hother _).trans hwritten, ?_⟩⟩
    rw [Commit.slot_onto (commits w.other) (commits w)]
    exact Function.update_self ..
  · obtain rfl : v = w := (v.eq_or_eq_other w).resolve_right fun heq => hwritten (heq ▸ hv)
    right
    rw [h.slots]
    rcases h.phase v.other with hp | hp | hp | hp
    · refine ⟨_, _, rfl, ⟨hself _, Or.inl ⟨rfl, Or.inl ⟨(hother _).trans hp, rfl⟩⟩⟩, ?_⟩
      simp only [hp, hasRead, Bool.false_eq_true, if_false]
      rfl
    · refine ⟨_, _, rfl, ⟨hself _, Or.inl ⟨rfl, Or.inr (Or.inl ⟨_, (hother _).trans hp, rfl⟩)⟩⟩, ?_⟩
      simp only [hp, hasRead]
      cases hslot : ((commits v).onto dir.load).slot <;> rfl
    · refine ⟨_, _, rfl, ⟨hself _, Or.inl ⟨rfl, Or.inr (Or.inr (Or.inl ((hother _).trans hp)))⟩⟩, ?_⟩
      simp only [hp, hasRead, if_true]
    · exact absurd hp hwritten

/-- From a state in which nobody has committed. -/
lemma Before.merged_iff (hfresh : Fresh commits dir) (h : Before commits dir s) (sched : List Saver)
    (hdone : ∀ w, (Savers.run commits sched s).phase w = .done) :
    Merged commits (Savers.run commits sched s) ↔ ∀ w, shadowed commits w sched s = true →
      familyOf dir.load (commits w).key = some (commits w).family := by
  induction sched generalizing s with
  | nil =>
    rcases h.phase .left with hp | hp | hp | hp <;> cases hp.symm.trans (hdone .left)
  | cons w sched ih =>
    by_cases hw : ∃ m, s.phase w = .written m
    · obtain ⟨m, hm⟩ := hw
      obtain ⟨c, hc, hwritten⟩ : ∃ c, c = (commits w).onto dir.load ∧ s.phase w = .written c := by
        rcases h.phase w with hp | hp | hp | hp
        · cases hp.symm.trans hm
        · cases hp.symm.trans hm
        · cases hp.symm.trans hm
        · exact ⟨_, rfl, hp⟩
      obtain hstuck | ⟨slots, m', hslots, hsolo, hm'⟩ := h.commit hc hwritten
      · exact absurd (hdone w.other) (hstuck.not_done sched)
      · have hshadow : ∀ u, shadowed commits u (w :: sched) s =
            (decide (w = u) && hasRead c.slot (s.phase w.other)) :=
          fun u => by rw [shadowed, hsolo.not_shadowed u sched, Bool.or_false, hwritten]
        have hend := (hsolo.run sched).slots_of_done (hdone w.other)
        have hstate : Savers.run commits (w :: sched) s =
            ⟨⟨Function.update slots m'.slot (some m'), (Savers.run commits (w :: sched) s).dir.tmp⟩,
              (Savers.run commits (w :: sched) s).phase⟩ := by
          rw [← hend]
          rfl
        rw [hstate]
        by_cases hread : hasRead c.slot (s.phase w.other) = true
        · rw [if_pos hread] at hm'
          have hkept : ∀ j, ((commits w.other).onto dir.load).slot ≠ j → slots j = dir.slots j := by
            intro j hj
            rw [hslots, hc, Function.update_of_ne]
            exact fun heq => hj (heq ▸ Commit.slot_onto (commits w.other) (commits w) dir.load)
          rw [hm', merged_of_early hfresh w.other rfl hkept, Saver.other_other]
          constructor
          · intro hrec u hu
            rw [hshadow, Bool.and_eq_true, decide_eq_true_eq] at hu
            exact hu.1 ▸ hrec
          · exact fun hall => hall w (by rw [hshadow, hread]; simp)
        · rw [if_neg hread] at hm'
          refine iff_of_true (merged_of_late hfresh w hc hslots slots hm') fun u hu => ?_
          rw [hshadow, Bool.and_eq_true] at hu
          exact absurd hu.2 hread
    · have hne : ∀ m, s.phase w ≠ .written m := fun m hm => hw ⟨m, hm⟩
      rw [show Savers.run commits (w :: sched) s = Savers.run commits sched (Savers.step commits w s)
        from rfl, ih (h.step hne) hdone]
      have hshadow : ∀ u, shadowed commits u (w :: sched) s =
          shadowed commits u sched (Savers.step commits w s) := fun u => by
        rw [shadowed]
        split
        · exact absurd ‹_› (hne _)
        · rfl
      simp only [hshadow]

/-- Both commits are in the manifest exactly if no writer's commit is overwritten by one that has
not seen it, unless the manifest knew that family before. -/
theorem commits_merge_iff (hfresh : Fresh commits dir) (sched : List Saver)
    (hdone : ∀ w, (run commits sched (init dir)).phase w = .done) :
    Merged commits (run commits sched (init dir)) ↔
      ∀ w, shadowed commits w sched (init dir) = true →
        familyOf dir.load (commits w).key = some (commits w).family :=
  before_init.merged_iff hfresh sched hdone

/-! ### Two first saves -/

/-- A directory without a manifest. -/
def noManifest : ManifestDir := ⟨fun _ => none, fun _ => none⟩

/-- A family that holds nothing but its snapshot. -/
def plainFamily (name : String) (seqno : ℕ) : SnapshotFamily where
  snapshotSeqno := seqno
  covered := []
  corticalCovered := []
  segments := []
  vectorSpaceId := none
  snapshot := ⟨name.toList, 0⟩
  sidecars := []
  cortical := none

/-- Two instances that save for the first time. -/
def firstSaves : Saver → Commit
  | .left => ⟨"0000000a".toList, plainFamily "chitta.0000000a.snapshot" 5⟩
  | .right => ⟨"0000000b".toList, plainFamily "chitta.0000000b.snapshot" 7⟩

lemma firstSaves_fresh : Fresh firstSaves noManifest where
  keys := by decide
  newer _ _ _ h := by cases h

/-- Both load before either renames. -/
def overlapping : List Saver := [.left, .left, .right, .right, .left, .left, .right, .right]

/-- One begins when the other is done. -/
def serial : List Saver := [.left, .left, .left, .left, .right, .right, .right, .right]

/-- Of two saves at once, one is lost. -/
theorem overlapping_commits_lose : ¬∀ (commits : Saver → Commit) (dir : ManifestDir)
    (sched : List Saver), Fresh commits dir →
      (∀ w, (run commits sched (init dir)).phase w = .done) →
        Merged commits (run commits sched (init dir)) := by
  intro h
  have hmerged := merged_iff.mp
    (h firstSaves noManifest overlapping firstSaves_fresh fun w => by cases w <;> rfl) .left
  have hnone : familyOf (run firstSaves overlapping (init noManifest)).dir.load
      (firstSaves .left).key = none := by rfl
  cases hnone.symm.trans hmerged

theorem commits_merge_serial : Merged firstSaves (run firstSaves serial (init noManifest)) :=
  (commits_merge_iff firstSaves_fresh serial fun w => by cases w <;> rfl).mpr
    fun w hw => absurd hw (by cases w <;> decide +kernel)

end Savers

end ChittaField
