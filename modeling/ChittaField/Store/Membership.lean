import ChittaField.Organs.HdcRuns
import ChittaField.Store.Forgetting

/-!
# The members of realms and kinds

An open builds the members of the realms and of the kinds from the payloads of the live memories.
Operations keep such maps as they go: a put adds the memory, a deletion takes it from what its
payload says then, and a new kind changes the payload only.

`members_eq_build_iff` says for which sequences of operations the maps that are kept are the maps
that are built.
-/

namespace ChittaField

open Listings

variable {F : Type}

/-! ## Maps that are built -/

/-- The members by what their payloads say.  Deleted memories are left out. -/
def buildMembers (key : MemoryPayload F → String) (ids : Finset MemoryId) (ctx : ApplyCtx F) :
    Members := fun name =>
  let members := ids.filter fun id => ctx.isLive id ∧ (ctx.payloads id).map key = some name
  if members = ∅ then none else some members

def buildRealmMembers (ids : Finset MemoryId) (ctx : ApplyCtx F) : Members :=
  buildMembers (·.realm) ids ctx

def buildKindMembers (ids : Finset MemoryId) (ctx : ApplyCtx F) : Members :=
  buildMembers (·.kind) ids ctx

namespace Members

/-- No key is kept without members. -/
def NoneEmpty (ms : Members) : Prop := ∀ key, ms key ≠ some ∅

variable {ms ms' : Members}

lemma NoneEmpty.insert (h : ms.NoneEmpty) (key : String) (id : MemoryId) :
    (ms.insert key id).NoneEmpty := by
  intro key'
  unfold Members.insert
  by_cases hkey : key' = key
  · rw [hkey, Function.update_self]
    exact fun heq => Finset.insert_ne_empty _ _ (Option.some.inj heq)
  · rw [Function.update_of_ne hkey]
    exact h key'

lemma NoneEmpty.remove (h : ms.NoneEmpty) (key : String) (id : MemoryId) :
    (ms.remove key id).NoneEmpty := by
  intro key'
  unfold Members.remove
  cases hids : ms key with
  | none => exact h key'
  | some ids =>
    dsimp only
    by_cases hkey : key' = key
    · rw [hkey, Function.update_self]
      split
      · exact (Option.some_ne_none _).symm
      · rename_i hne
        exact fun heq => hne (Option.some.inj heq)
    · rw [Function.update_of_ne hkey]
      exact h key'

/-- Maps without empty keys are the same if every memory has the same keys. -/
lemma eq_iff_keysOf (h : ms.NoneEmpty) (h' : ms'.NoneEmpty) :
    ms = ms' ↔ ∀ m, ms.keysOf m = ms'.keysOf m := by
  refine ⟨fun heq m => by rw [heq], fun hkeys => funext fun key => ?_⟩
  have hgetD : (ms key).getD ∅ = (ms' key).getD ∅ :=
    Finset.ext fun m => Set.ext_iff.mp (hkeys m) key
  have hne := h key
  have hne' := h' key
  cases hids : ms key with
  | none =>
    cases hids' : ms' key with
    | none => rfl
    | some ids' =>
      rw [hids, hids', Option.getD_none, Option.getD_some] at hgetD
      rw [hids', ← hgetD] at hne'
      exact absurd rfl hne'
  | some ids =>
    cases hids' : ms' key with
    | none =>
      rw [hids, hids', Option.getD_none, Option.getD_some] at hgetD
      rw [hids, hgetD] at hne
      exact absurd rfl hne
    | some ids' =>
      rw [hids, hids', Option.getD_some, Option.getD_some] at hgetD
      rw [hgetD]

lemma noneEmpty_build (key : MemoryPayload F → String) (ids : Finset MemoryId) (ctx : ApplyCtx F) :
    NoneEmpty (buildMembers key ids ctx) := by
  intro name
  unfold buildMembers
  dsimp only
  split
  · exact (Option.some_ne_none _).symm
  · rename_i hne
    exact fun heq => hne (Option.some.inj heq)

lemma keysOf_build (key : MemoryPayload F → String) {ids : Finset MemoryId} {ctx : ApplyCtx F}
    {m : MemoryId} (hids : ctx.payloads m ≠ none → m ∈ ids) :
    keysOf (buildMembers key ids ctx) m =
      {name | ctx.isLive m = true ∧ (ctx.payloads m).map key = some name} := by
  ext name
  have hgetD : (buildMembers key ids ctx name).getD ∅ =
      ids.filter fun id => ctx.isLive id ∧ (ctx.payloads id).map key = some name := by
    unfold buildMembers
    dsimp only
    split
    · rename_i hempty
      exact hempty.symm
    · rfl
  change m ∈ (buildMembers key ids ctx name).getD ∅ ↔ _
  rw [hgetD, Finset.mem_filter]
  refine and_iff_right_of_imp fun h => hids fun hnone => ?_
  rw [hnone] at h
  exact (Option.some_ne_none _).symm h.2

end Members

/-! ## Maps that are kept -/

variable [F32 F] {T : Casing} {m : MemoryId}

/-- The mark of deletion behind an operation. -/
lemma deleted_applyOp {κ : Type} (L : Listing F κ) (op : Op F) (ctx : ApplyCtx F) :
    ((applyOp op ctx).states m).map (·.deleted) =
      (L.event m op).elim ((ctx.states m).map (·.deleted))
        (mark ((ctx.states m).map (·.deleted))) := by
  have hflags : ∀ o : Option (MemoryState F), o.map (·.deleted) = (o.map (·.flags)).map Prod.fst :=
    fun o => by cases o <;> rfl
  rw [hflags, flags_applyOp, hflags]
  cases op with
  | putPayload put =>
    rw [Listing.event]
    by_cases hm : put.memoryId = m
    · cases ctx.states m <;> simp [created, hm, mark, flagsAfter, MemoryState.new, MemoryState.flags]
    · cases ctx.states m <;> simp [created, hm, flagsAfter]
  | deleteMemory d =>
    rw [Listing.event]
    by_cases hm : d.memoryId = m <;> cases ctx.states m <;> simp [created, hm, mark, flagsAfter]
  | updateMemoryContent u =>
    cases ctx.states m <;> simp [created, flagsAfter, apply_ite, Listing.event]
  | updateMemoryKind u =>
    rw [Listing.event]
    split
    · cases L.renamed u <;> cases ctx.states m <;> rfl
    · cases ctx.states m <;> rfl
  | _ => cases ctx.states m <;> rfl

lemma deleted_run {κ : Type} (L : Listing F κ) (ops : List (Op F)) (c : IndexCtx F) :
    ((applyAllIndexed T ops c).ctx.states m).map (·.deleted) =
      (ops.filterMap (L.event m)).foldl mark ((c.ctx.states m).map (·.deleted)) := by
  induction ops generalizing c with
  | nil => rfl
  | cons op ops ih =>
    rw [applyAllIndexed, List.foldl_cons, ← applyAllIndexed, ih, ctx_applyOpIndexed,
      deleted_applyOp L]
    cases hevent : L.event m op with
    | none => rw [List.filterMap_cons_none hevent, Option.elim_none]
    | some e => rw [List.filterMap_cons_some hevent, List.foldl_cons, Option.elim_some]

omit [F32 F] in
lemma isLive_iff (ctx : ApplyCtx F) (m : MemoryId) :
    ctx.isLive m = true ↔ (ctx.states m).map (·.deleted) = some false := by
  unfold ApplyCtx.isLive
  cases ctx.states m with
  | none => simp
  | some st => cases hd : st.deleted <;> simp [hd]

lemma ctx_applyAllIndexed (ops : List (Op F)) (c : IndexCtx F) :
    (applyAllIndexed T ops c).ctx = HdcField.applyOps c.ctx ops := by
  induction ops generalizing c with
  | nil => rfl
  | cons op ops ih =>
    rw [applyAllIndexed, List.foldl_cons, ← applyAllIndexed, ih, ctx_applyOpIndexed]
    rfl

/-- The members of a memory's keys that are kept are those that are built iff its events track
it. -/
lemma Listing.Lawful.keys_eq_iff {L : Listing F String} (h : L.Lawful T) (ops : List (Op F)) :
    L.keys (applyAllIndexed T ops .empty) m =
      Members.keysOf (buildMembers L.key (HdcField.putIds ops) (applyAllIndexed T ops .empty).ctx) m ↔
        Tracked (ops.filterMap (L.event m)) := by
  have hids : (applyAllIndexed T ops .empty).ctx.payloads m ≠ none → m ∈ HdcField.putIds ops := by
    intro hpayload
    rw [ctx_applyAllIndexed] at hpayload
    have hempty : ∀ id, (ApplyCtx.empty : ApplyCtx F).payloads id ≠ none →
        id ∈ (∅ : Finset MemoryId) := fun _ hne => absurd rfl hne
    have hmem := HdcField.mem_ids_applyOps hempty ops m hpayload
    rwa [Finset.empty_union] at hmem
  have hrun := h.register_run ops .empty m
  rw [h.register_empty] at hrun
  have hcurrent : ((applyAllIndexed T ops .empty).ctx.payloads m).map L.key =
      (ops.filterMap (L.event m)).foldl Listings.follow none :=
    (congrArg Register.current hrun).trans (current_run _ ⟨∅, none⟩)
  have hlive : (applyAllIndexed T ops .empty).ctx.isLive m = true ↔
      ((ops.filterMap (L.event m)).foldl Listings.follow none).isSome = true ∧
        Dies false (ops.filterMap (L.event m)) = false := by
    rw [isLive_iff, deleted_run L]
    exact foldl_mark_none _
  rw [Members.keysOf_build _ hids, hcurrent, ← keys_run_eq_iff]
  change (L.register (applyAllIndexed T ops .empty) m).keys = _ ↔ _
  rw [hrun]
  have hset : {name | (applyAllIndexed T ops .empty).ctx.isLive m = true ∧
      (ops.filterMap (L.event m)).foldl Listings.follow none = some name} =
      {name | Dies false (ops.filterMap (L.event m)) = false ∧
        (ops.filterMap (L.event m)).foldl Listings.follow none = some name} := by
    ext name
    refine and_congr_left fun hname => ?_
    rw [hlive, hname, Option.isSome_some]
    exact and_iff_right rfl
  rw [hset]

/-- No operation leaves a realm or a kind without members. -/
lemma noneEmpty_run (ops : List (Op F)) :
    (applyAllIndexed T ops .empty).realmMembers.NoneEmpty ∧
      (applyAllIndexed T ops .empty).kindMembers.NoneEmpty := by
  refine applyAllIndexed_keeps
    (P := fun c : IndexCtx F => c.realmMembers.NoneEmpty ∧ c.kindMembers.NoneEmpty)
    (fun op _ c h => ?_) ⟨fun _ => (Option.some_ne_none _).symm, fun _ => (Option.some_ne_none _).symm⟩
  cases op with
  | putPayload put => exact ⟨h.1.insert _ _, h.2.insert _ _⟩
  | deleteMemory d =>
    simp only [applyOpIndexed]
    cases c.ctx.payloads d.memoryId with
    | none => exact h
    | some p => exact ⟨h.1.remove _ _, h.2.remove _ _⟩
  | _ => exact h

/-- The members that are kept are those that are built iff every memory is tracked: one that is
deleted behind a put is listed under nothing that its payload does not say at a later deletion, and
one that is not is listed under what its payload says at the end. -/
theorem members_eq_build_iff (ops : List (Op F)) :
    let c := applyAllIndexed T ops .empty
    (c.realmMembers = buildRealmMembers (HdcField.putIds ops) c.ctx ∧
      c.kindMembers = buildKindMembers (HdcField.putIds ops) c.ctx) ↔
        ∀ m, Tracked (ops.filterMap (Listing.realms.event m)) ∧
          Tracked (ops.filterMap (Listing.kinds.event m)) := by
  intro c
  obtain ⟨hrealms, hkinds⟩ := noneEmpty_run (T := T) ops
  rw [forall_and]
  refine and_congr ?_ ?_
  · refine (Members.eq_iff_keysOf hrealms (Members.noneEmpty_build _ _ _)).trans ?_
    exact forall_congr' fun m => Listing.lawful_realms.keys_eq_iff ops
  · refine (Members.eq_iff_keysOf hkinds (Members.noneEmpty_build _ _ _)).trans ?_
    exact forall_congr' fun m => Listing.lawful_kinds.keys_eq_iff ops

/-- A new kind, a second put in another realm, and a put behind a deletion leave members that an
open does not build. -/
theorem members_ne_build :
    let rekinded : List (Op ℚ) := [.putPayload (sampleDated 1), .updateMemoryKind ⟨1, "wisdom", 2⟩]
    let moved : List (Op ℚ) :=
      [.putPayload (sampleDated 1), .putPayload { sampleDated 1 with realm := "b" }]
    let revived : List (Op ℚ) :=
      [.putPayload (sampleDated 1), .deleteMemory ⟨1, 2⟩, .putPayload (sampleDated 1)]
    (applyAllIndexed .ascii rekinded .empty).kindMembers ≠ buildKindMembers (HdcField.putIds rekinded)
        (applyAllIndexed .ascii rekinded .empty).ctx ∧
      (applyAllIndexed .ascii moved .empty).realmMembers ≠ buildRealmMembers
        (HdcField.putIds moved) (applyAllIndexed .ascii moved .empty).ctx ∧
      (applyAllIndexed .ascii revived .empty).realmMembers ≠ buildRealmMembers
        (HdcField.putIds revived) (applyAllIndexed .ascii revived .empty).ctx := by
  refine ⟨fun h => ?_, fun h => ?_, fun h => ?_⟩
  · exact absurd (congrFun h "episode") (by decide +kernel)
  · exact absurd (congrFun h "a") (by decide +kernel)
  · exact absurd (congrFun h "a") (by decide +kernel)

end ChittaField
