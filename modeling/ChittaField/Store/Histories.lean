import ChittaField.Store.Live
import ChittaField.Store.Replay

/-!
# The history of a memory

What a log says of one memory, field by field: with which operations it is created, what is written
to its content and to its kind, how its state is updated and when it is deleted.  Operations that
write to different fields commute, so the payload and the state of a memory depend only on its
history (`applyAll_histories`).
-/

namespace ChittaField

variable {F : Type}

/-! ## Histories -/

/-- What is written to a field that a memory is created with. -/
inductive Write (α : Type) where
  | create (a : α)
  | set (a : α)
  deriving DecidableEq

/-- The field after a write, if there is a memory. -/
def Write.apply {α : Type} (x : Option α) : Write α → Option α
  | .create a => some a
  | .set a => x.map fun _ => a

/-- What is said of a memory. -/
structure History (F : Type) where
  puts : List (PutPayloadOp F)
  contents : List (Write Bytes)
  kinds : List (Write String)
  updates : List (PutPayloadOp F ⊕ StateDeltaOp F)
  /-- The creations (`false`) and the deletions (`true`). -/
  deletions : List Bool

namespace History

/-- Nothing is said. -/
def empty : History F := ⟨[], [], [], [], []⟩

/-- What an operation says of a memory. -/
def add (m : MemoryId) (h : History F) : Op F → History F
  | .putPayload put =>
    if put.memoryId = m then
      ⟨h.puts ++ [put], h.contents ++ [.create put.content], h.kinds ++ [.create put.kind],
        h.updates ++ [.inl put], h.deletions ++ [false]⟩
    else h
  | .updateMemoryContent u =>
    if u.memoryId = m then { h with contents := h.contents ++ [.set u.content] } else h
  | .updateMemoryKind u =>
    if u.memoryId = m then { h with kinds := h.kinds ++ [.set u.newKind] } else h
  | .updateState d => if d.memoryId = m then { h with updates := h.updates ++ [.inr d] } else h
  | .deleteMemory d =>
    if d.memoryId = m then
      { h with contents := h.contents ++ [.set []], deletions := h.deletions ++ [true] }
    else h
  | _ => h

/-- What a log says of a memory. -/
def of (m : MemoryId) (ops : List (Op F)) : History F := ops.foldl (add m) empty

/-- The payload of the memory. -/
def payload (h : History F) : Option (MemoryPayload F) :=
  h.puts.getLast?.bind fun put =>
    (h.contents.foldl Write.apply none).bind fun content =>
      (h.kinds.foldl Write.apply none).map fun kind =>
        { MemoryPayload.ofPut put with embedding := [], content := content, kind := kind }

/-- The memory is deleted, if there is one. -/
def deleted (h : History F) : Option Bool :=
  h.deletions.foldl (fun x deletion => if deletion then x.map fun _ => true else some (x.getD false))
    none

variable [F32 F]

/-- The state after an update. -/
def update (s : Option (MemoryState F)) : PutPayloadOp F ⊕ StateDeltaOp F → Option (MemoryState F)
  | .inl put => some { s.getD (.new put.memoryId put.chunkHash put.createdAtMs) with
      currentVersion := put.version
      currentChunkHash := put.chunkHash }
  | .inr d => s.map fun s => s.applyDelta d (s.replayNow d)

/-- The state of the memory as if it were not deleted. -/
def updated (h : History F) : Option (MemoryState F) := h.updates.foldl update none

/-- The state of the memory. -/
def state (h : History F) : Option (MemoryState F) :=
  h.updated.bind fun s => h.deleted.map fun deleted => { s with deleted := deleted }

/-! ## Replay tells histories -/

/-- The maps hold what the history of a memory tells. -/
structure Tells (h : History F) (ctx : ApplyCtx F) (m : MemoryId) : Prop where
  payload : ctx.payloads m = h.payload
  state : ctx.states m = h.state
  both : h.updated.isSome = h.deleted.isSome
  settled : ∀ s, h.updated = some s → s.embedPending = false

lemma empty_tells (m : MemoryId) : (empty : History F).Tells .empty m where
  payload := rfl
  state := rfl
  both := rfl
  settled _ hs := nomatch (hs : none = some _)

end History

/-- The operations on memories and edges, and those for the artifacts, the triplets and the sparse
codes. -/
def isMemoryOp : Op F → Bool
  | .putPayload _ => true
  | .updateState _ => true
  | .deleteMemory _ => true
  | .addAssocEdge _ => true
  | .updateMemoryContent _ => true
  | .updateMemoryKind _ => true
  | op => isSideOp op

namespace History

variable [F32 F] {h : History F} {ctx : ApplyCtx F} {m : MemoryId}

/-- A change that leaves the history and the memory alone. -/
lemma Tells.frame (ht : h.Tells ctx m) {ctx' : ApplyCtx F} (hp : ctx'.payloads m = ctx.payloads m)
    (hs : ctx'.states m = ctx.states m) : h.Tells ctx' m :=
  ⟨hp.trans ht.payload, hs.trans ht.state, ht.both, ht.settled⟩

/-- Deleting a memory does not matter to how its state is updated. -/
lemma applyDelta_deleted (s : MemoryState F) (deleted : Bool) (d : StateDeltaOp F) (nowMs : ℤ) :
    ({ s with deleted := deleted } : MemoryState F).applyDelta d nowMs =
      { s.applyDelta d nowMs with deleted := deleted } := by
  unfold MemoryState.applyDelta
  split <;> rfl

/-- A memory has both parts of a state, or neither. -/
lemma Tells.parts (ht : h.Tells ctx m) :
    h.updated = none ∧ h.deleted = none ∧ ctx.states m = none ∨
      ∃ s deleted, h.updated = some s ∧ h.deleted = some deleted ∧
        ctx.states m = some { s with deleted := deleted } := by
  have hboth := ht.both
  rw [ht.state, History.state]
  cases hu : h.updated with
  | none =>
    rw [hu, Option.isSome_none, eq_comm, Option.isSome_eq_false_iff, Option.isNone_iff_eq_none] at hboth
    exact Or.inl ⟨rfl, hboth, rfl⟩
  | some s =>
    rw [hu, Option.isSome_some, eq_comm, Option.isSome_iff_exists] at hboth
    obtain ⟨deleted, hd⟩ := hboth
    exact Or.inr ⟨s, deleted, rfl, hd, by rw [hd]; rfl⟩

/-- A memory is created. -/
lemma Tells.put (ht : h.Tells ctx m) {put : PutPayloadOp F} (hm : put.memoryId = m) :
    (h.add m (.putPayload put)).Tells (applyOp (.putPayload put) ctx) m := by
  subst hm
  have hupdated : (h.add put.memoryId (.putPayload put)).updated =
      History.update h.updated (.inl put) := by simp [add, updated]
  have hdeleted : (h.add put.memoryId (.putPayload put)).deleted = some (h.deleted.getD false) := by
    simp [add, deleted]
  refine ⟨?_, ?_, by rw [hupdated, hdeleted]; rfl, fun s hs => ?_⟩
  · simp [add, applyOp, History.payload, Write.apply, MemoryPayload.ofPut]
  · simp only [History.state, hupdated, hdeleted, applyOp, Function.update_self]
    rcases ht.parts with ⟨hu, hd, hs⟩ | ⟨s, deleted, hu, hd, hs⟩ <;>
      simp [hu, hd, hs, History.update, MemoryState.new]
  · rw [hupdated, History.update, Option.some.injEq] at hs
    subst hs
    cases hu : h.updated with
    | none => rfl
    | some s => exact ht.settled s hu

/-- A state is updated. -/
lemma Tells.update (ht : h.Tells ctx m) {d : StateDeltaOp F} (hm : d.memoryId = m) :
    (h.add m (.updateState d)).Tells (applyOp (.updateState d) ctx) m := by
  subst hm
  rw [add, if_pos rfl]
  have hupdated : ({ h with updates := h.updates ++ [.inr d] } : History F).updated =
      h.updated.map fun s => s.applyDelta d (s.replayNow d) := by simp [updated, History.update]
  have hmod : (applyOp (.updateState d) ctx).states d.memoryId =
      (ctx.states d.memoryId).map fun s => s.applyDelta d (s.replayNow d) := Maps.modifyAt_self
  refine ⟨ht.payload, ?_, by rw [hupdated, Option.isSome_map]; exact ht.both, fun s hs => ?_⟩
  · rw [hmod, History.state, hupdated]
    rcases ht.parts with ⟨hu, -, hs⟩ | ⟨s, deleted, hu, hd, hs⟩
    · rw [hu, hs]
      rfl
    · have hd' : ({ h with updates := h.updates ++ [.inr d] } : History F).deleted = some deleted := hd
      rw [hu, hs, hd', Option.map_some, applyDelta_deleted]
      rfl
  · rw [hupdated] at hs
    obtain ⟨s₀, hu, rfl⟩ := Option.map_eq_some_iff.mp hs
    exact (congrArg Prod.snd (s₀.flags_applyDelta d _)).trans (ht.settled s₀ hu)

/-- A memory is deleted. -/
lemma Tells.delete (ht : h.Tells ctx m) {d : DeleteMemoryOp} (hm : d.memoryId = m) :
    (h.add m (.deleteMemory d)).Tells (applyOp (.deleteMemory d) ctx) m := by
  subst hm
  have hupdated : (h.add d.memoryId (.deleteMemory d)).updated = h.updated := by simp [add, updated]
  have hdeleted : (h.add d.memoryId (.deleteMemory d)).deleted = h.deleted.map fun _ => true := by
    simp [add, deleted]
  have hmod : (applyOp (.deleteMemory d) ctx).states d.memoryId =
      (ctx.states d.memoryId).map ({ · with deleted := true }) := Maps.modifyAt_self
  have hpay : (applyOp (.deleteMemory d) ctx).payloads d.memoryId =
      (ctx.payloads d.memoryId).map ({ · with content := [] }) := Maps.modifyAt_self
  refine ⟨?_, ?_, by rw [hupdated, hdeleted, Option.isSome_map]; exact ht.both, fun s hs => ?_⟩
  · rw [hpay, ht.payload]
    simp [add, History.payload, Write.apply, Option.map_bind, Option.bind_map, Function.comp_def]
  · rw [hmod, History.state, hupdated, hdeleted]
    rcases ht.parts with ⟨hu, -, hs⟩ | ⟨s, deleted, hu, hd, hs⟩
    · simp [hu, hs]
    · simp [hu, hd, hs]
  · exact ht.settled s (hupdated ▸ hs)

/-- A content is replaced. -/
lemma Tells.content (ht : h.Tells ctx m) {u : UpdateMemoryContentOp F} (hm : u.memoryId = m) :
    (h.add m (.updateMemoryContent u)).Tells (applyOp (.updateMemoryContent u) ctx) m := by
  subst hm
  rw [add, if_pos rfl]
  refine ⟨?_, ?_, ht.both, ht.settled⟩
  · rw [applyOp]
    split <;> refine Maps.modifyAt_self.trans ?_ <;> rw [ht.payload] <;>
      simp [History.payload, Write.apply, Option.map_bind, Option.bind_map, Function.comp_def]
  · rw [applyOp]
    split
    · exact ht.state
    · refine Maps.modifyAt_self.trans (Eq.trans ?_ ht.state)
      rcases ht.parts with ⟨-, -, hs⟩ | ⟨s, deleted, hu, -, hs⟩
      · rw [ApplyCtx.modifyPayload, hs]
        rfl
      · have hpending := ht.settled s hu
        rw [ApplyCtx.modifyPayload, hs, Option.map_some]
        congr 1
        rw [MemoryState.mk.injEq]
        simp [hpending]

/-- A kind is replaced. -/
lemma Tells.kind (ht : h.Tells ctx m) {u : UpdateMemoryKindOp} (hm : u.memoryId = m) :
    (h.add m (.updateMemoryKind u)).Tells (applyOp (.updateMemoryKind u) ctx) m := by
  subst hm
  rw [add, if_pos rfl]
  have hpay : (applyOp (.updateMemoryKind u) ctx).payloads u.memoryId =
      (ctx.payloads u.memoryId).map ({ · with kind := u.newKind }) := Maps.modifyAt_self
  refine ⟨?_, ht.state, ht.both, ht.settled⟩
  rw [hpay, ht.payload]
  simp [History.payload, Write.apply, Option.map_bind, Function.comp_def]

/-- An operation. -/
lemma Tells.step (ht : h.Tells ctx m) {op : Op F} (hop : isMemoryOp op = true) :
    (h.add m op).Tells (applyOp op ctx) m := by
  cases op with
  | putPayload put =>
    by_cases hm : put.memoryId = m
    · exact ht.put hm
    · rw [add, if_neg hm]
      exact ht.frame (Function.update_of_ne (Ne.symm hm) ..) (Function.update_of_ne (Ne.symm hm) ..)
  | updateState d =>
    by_cases hm : d.memoryId = m
    · exact ht.update hm
    · rw [add, if_neg hm]
      exact ht.frame rfl (Maps.modifyAt_of_ne (Ne.symm hm))
  | deleteMemory d =>
    by_cases hm : d.memoryId = m
    · exact ht.delete hm
    · rw [add, if_neg hm]
      exact ht.frame (Maps.modifyAt_of_ne (Ne.symm hm)) (Maps.modifyAt_of_ne (Ne.symm hm))
  | updateMemoryContent u =>
    by_cases hm : u.memoryId = m
    · exact ht.content hm
    · rw [add, if_neg hm, applyOp]
      split
      · exact ht.frame (Maps.modifyAt_of_ne (Ne.symm hm)) rfl
      · exact ht.frame (Maps.modifyAt_of_ne (Ne.symm hm)) (Maps.modifyAt_of_ne (Ne.symm hm))
  | updateMemoryKind u =>
    by_cases hm : u.memoryId = m
    · exact ht.kind hm
    · rw [add, if_neg hm]
      exact ht.frame (Maps.modifyAt_of_ne (Ne.symm hm)) rfl
  | addAssocEdge | upsertArtifact | addTriplet | invalidateTriplet | supersedeTriplet
  | updateSparseCode => exact ht.frame rfl rfl
  | _ => cases hop

/-- A log of operations on memories. -/
lemma Tells.foldl (ht : h.Tells ctx m) {ops : List (Op F)}
    (hops : ∀ op ∈ ops, isMemoryOp op = true) :
    (ops.foldl (add m) h).Tells (applyAll ctx ops) m := by
  induction ops generalizing h ctx with
  | nil => exact ht
  | cons op ops ih =>
    exact ih (ht.step (hops op List.mem_cons_self)) fun op' hop' =>
      hops op' (List.mem_cons_of_mem _ hop')

end History

/-- Two logs that say the same of a memory, in the same order for each of its fields, leave it with
the same payload and the same state. -/
theorem applyAll_histories [F32 F] {m : MemoryId} {ops ops' : List (Op F)}
    (hops : ∀ op ∈ ops, isMemoryOp op = true) (hops' : ∀ op ∈ ops', isMemoryOp op = true)
    (h : History.of m ops = History.of m ops') :
    (applyAll .empty ops).payloads m = (applyAll .empty ops').payloads m ∧
      (applyAll .empty ops).states m = (applyAll .empty ops').states m := by
  have ht := (History.empty_tells m).foldl hops
  have ht' := (History.empty_tells m).foldl hops'
  rw [← History.of, ← h, History.of] at ht'
  exact ⟨ht.payload.trans ht'.payload.symm, ht.state.trans ht'.state.symm⟩

end ChittaField
