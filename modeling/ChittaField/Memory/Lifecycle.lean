import ChittaField.Memory.Apply

/-!
# The life of a memory under operations

`states_applyOp` says once what an operation does to the state of a memory: a put makes one for a
memory without, and `changed` is what becomes of it.  Only a put makes a state, and no operation takes
the mark of deletion away.  `payloads_applyOp` says the same of the payload, which a put replaces.
-/

namespace ChittaField

variable {F : Type}

/-- What every change of a list keeps, the list keeps. -/
lemma foldl_keeps {α σ : Type} {P : σ → Prop} {f : σ → α → σ} (hf : ∀ s a, P s → P (f s a))
    (l : List α) {s : σ} (h : P s) : P (l.foldl f s) :=
  List.foldlRecOn l f h fun s h a _ => hf s a h

variable {ctx : ApplyCtx F} {m : MemoryId}

lemma states_modifyState (ctx : ApplyCtx F) (id : MemoryId) (f : MemoryState F → MemoryState F) :
    (ctx.modifyState id f).states m = (ctx.states m).map fun st => if id = m then f st else st :=
  Maps.modifyAt_apply

/-- Changes of states, as the state of one memory sees them. -/
lemma states_foldl_modifyState {α : Type} {key : α → MemoryId}
    {f : α → MemoryState F → MemoryState F} (l : List α) (ctx : ApplyCtx F) :
    (l.foldl (fun ctx a => ctx.modifyState (key a) (f a)) ctx).states m =
      (ctx.states m).map fun st => (l.filter (key · = m)).foldl (fun st a => f a st) st := by
  induction l generalizing ctx with
  | nil => exact (Option.map_id' ..).symm
  | cons a l ih =>
    rw [List.foldl_cons, ih, states_modifyState, Option.map_map]
    congr 1
    funext st
    by_cases h : key a = m <;> simp [h]

/-- A memory that is marked as deleted. -/
def Forgotten (ctx : ApplyCtx F) (id : MemoryId) : Prop :=
  ∃ st, ctx.states id = some st ∧ st.deleted = true

/-- A change of a state that keeps the mark. -/
lemma Forgotten.modifyState (h : Forgotten ctx m) (id : MemoryId)
    {f : MemoryState F → MemoryState F}
    (hf : ∀ st : MemoryState F, st.deleted = true → (f st).deleted = true) :
    Forgotten (ctx.modifyState id f) m := by
  obtain ⟨st, hst, hdel⟩ := h
  refine ⟨_, (states_modifyState ctx id f).trans (congrArg (Option.map _) hst), ?_⟩
  split
  · exact hf st hdel
  · exact hdel

variable [F32 F]

/-- The co-retrieval of two memories leaves the states alone. -/
lemma states_foldl_coRetrieve (b : RecordRecallBatchOp F) (l : List (MemoryId × MemoryId))
    (ctx : ApplyCtx F) : (l.foldl (ApplyCtx.coRetrieve b) ctx).states = ctx.states := by
  induction l generalizing ctx with
  | nil => rfl
  | cons pair l ih => exact ih _

/-- The state that a put makes for a memory without one. -/
def created (m : MemoryId) : Op F → Option (MemoryState F)
  | .putPayload put =>
    if put.memoryId = m then some (.new m put.chunkHash put.createdAtMs) else none
  | _ => none

/-- What an operation makes of the state of a memory. -/
def changed (m : MemoryId) (op : Op F) (st : MemoryState F) : MemoryState F :=
  match op with
  | .putPayload put =>
    if put.memoryId = m then
      { st with currentVersion := put.version, currentChunkHash := put.chunkHash }
    else st
  | .updateStateBatch deltas =>
    (deltas.filter (·.memoryId = m)).foldl (fun st d => st.applyAccessDelta d) st
  | .updateState d => if d.memoryId = m then st.applyDelta d (st.replayNow d) else st
  | .deleteMemory d => if d.memoryId = m then { st with deleted := true } else st
  | .demoteMemory d => if d.memoryId = m then { st with tier := d.newTier } else st
  | .recordOutcome r => if r.memoryId = m then st.recordOutcome r.success r.weight else st
  | .updateMemoryContent u =>
    if u.embedding.isEmpty then st
    else if u.memoryId = m then { st with embedPending := false } else st
  | .recordRecallBatch b =>
    (b.memoryIds.filter (· = m)).foldl (fun st _ =>
      { st with
        accessCount := (st.accessCount + 1) % 2 ^ 32
        lastAccessedMs := b.tsMs
        retrievalHistory := st.retrievalHistory.push
          ⟨b.centroidQ, b.centroidScale, b.contextHash, b.tsMs⟩ }) st
  | _ => st

/-- The state of a memory behind an operation. -/
lemma states_applyOp (op : Op F) (ctx : ApplyCtx F) (m : MemoryId) :
    (applyOp op ctx).states m = ((ctx.states m).or (created m op)).map (changed m op) := by
  cases op with
  | putPayload put =>
    by_cases hid : put.memoryId = m
    · subst hid
      cases hst : ctx.states put.memoryId <;> simp [applyOp, created, changed, hst]
    · have hsame : changed m (.putPayload put) = id := funext fun _ => if_neg hid
      simp [applyOp, created, hsame, hid, Ne.symm hid]
  | updateStateBatch deltas =>
    exact (states_foldl_modifyState deltas ctx).trans (congrArg _ (Option.or_none).symm)
  | recordRecallBatch b =>
    simp only [applyOp, states_foldl_coRetrieve]
    exact (states_foldl_modifyState b.memoryIds ctx).trans (congrArg _ (Option.or_none).symm)
  | updateMemoryContent u =>
    refine Eq.trans ?_ (congrArg _ (Option.or_none).symm)
    simp only [applyOp]
    by_cases hempty : u.embedding.isEmpty
    · have hsame : changed m (.updateMemoryContent u) = id := funext fun _ => if_pos hempty
      rw [if_pos hempty, hsame, Option.map_id]
      rfl
    · rw [if_neg hempty, states_modifyState]
      exact congrArg (Option.map · _) (funext fun _ => (if_neg hempty).symm)
  | updateState | deleteMemory | demoteMemory | recordOutcome =>
    exact (states_modifyState ..).trans (congrArg _ (Option.or_none).symm)
  | _ => exact (Option.map_id' ..).symm.trans (congrArg _ (Option.or_none).symm)

/-- Only a put makes a state. -/
lemma states_applyOp_none {op : Op F} (hop : ∀ put, op = .putPayload put → put.memoryId ≠ m)
    (h : ctx.states m = none) : (applyOp op ctx).states m = none := by
  rw [states_applyOp, h, Option.none_or, Option.map_eq_none_iff]
  cases op with
  | putPayload put => exact if_neg (hop put rfl)
  | _ => rfl

/-- A memory without a state has none after operations that do not put it. -/
lemma states_foldl_applyOp_none {ops : List (Op F)}
    (hops : ∀ op ∈ ops, ∀ put, op = .putPayload put → put.memoryId ≠ m) (h : ctx.states m = none) :
    (ops.foldl (fun ctx op => applyOp op ctx) ctx).states m = none := by
  exact List.foldlRecOn (motive := fun ctx : ApplyCtx F => ctx.states m = none) ops _ h
    fun _ h op hop => states_applyOp_none (hops op hop) h

/-! ## Payloads -/

/-- The payload that a put stores for a memory. -/
def stored (m : MemoryId) : Op F → Option (MemoryPayload F)
  | .putPayload put =>
    if put.memoryId = m then some { MemoryPayload.ofPut put with embedding := [] } else none
  | _ => none

/-- What an operation that is not a put makes of the payload of a memory. -/
def rewritten (m : MemoryId) : Op F → MemoryPayload F → MemoryPayload F
  | .deleteMemory d, p => if d.memoryId = m then { p with content := [] } else p
  | .updateMemoryContent u, p =>
    if u.memoryId = m then
      { p with
        content := u.content
        embedding := if u.embedding.isEmpty then p.embedding else [] }
    else p
  | .updateMemoryKind u, p => if u.memoryId = m then { p with kind := u.newKind } else p
  | _, p => p

omit [F32 F] in
lemma payloads_modifyPayload (ctx : ApplyCtx F) (id : MemoryId)
    (f : MemoryPayload F → MemoryPayload F) :
    (ctx.modifyPayload id f).payloads m = (ctx.payloads m).map fun p => if id = m then f p else p :=
  Maps.modifyAt_apply

/-- The payload of a memory behind an operation. -/
lemma payloads_applyOp (op : Op F) (ctx : ApplyCtx F) (m : MemoryId) :
    (applyOp op ctx).payloads m = (stored m op).or ((ctx.payloads m).map (rewritten m op)) := by
  cases op with
  | putPayload put =>
    by_cases hid : put.memoryId = m
    · subst hid
      simp [applyOp, stored]
    · have hsame : rewritten m (.putPayload put) = id := rfl
      simp [applyOp, stored, hsame, hid, Ne.symm hid]
  | updateStateBatch deltas =>
    refine (foldl_keeps (P := fun c : ApplyCtx F => c.payloads m = ctx.payloads m)
      (fun _ _ h => ?_) deltas rfl).trans (Option.map_id' ..).symm
    exact h
  | recordRecallBatch b =>
    refine Eq.trans ?_ (Option.map_id' ..).symm
    refine foldl_keeps (P := fun c : ApplyCtx F => c.payloads m = ctx.payloads m)
      (f := ApplyCtx.coRetrieve b) (fun _ _ h => h) _ ?_
    refine foldl_keeps (P := fun c : ApplyCtx F => c.payloads m = ctx.payloads m) (fun _ _ h => ?_)
      b.memoryIds rfl
    exact h
  | updateMemoryContent u =>
    simp only [applyOp]
    split
    next h =>
      refine (payloads_modifyPayload ..).trans (congrArg (Option.map · _) (funext fun p => ?_))
      simp only [rewritten, h, if_true]
    next h =>
      refine (payloads_modifyPayload ..).trans (congrArg (Option.map · _) (funext fun p => ?_))
      simp only [rewritten, if_neg h]
  | deleteMemory | updateMemoryKind => exact payloads_modifyPayload ..
  | _ => exact (Option.map_id' ..).symm

/-! ## Flags -/

omit [F32 F] in
/-- What a state says of its memory: that it is deleted, and that it waits for its vector. -/
def MemoryState.flags (st : MemoryState F) : Bool × Bool := (st.deleted, st.embedPending)

lemma MemoryState.flags_applyDelta (st : MemoryState F) (delta : StateDeltaOp F) (nowMs : ℤ) :
    (st.applyDelta delta nowMs).flags = st.flags := by
  unfold MemoryState.applyDelta MemoryState.flags
  split <;> rfl

/-- What an operation makes of the flags of a memory. -/
def flagsAfter (m : MemoryId) : Op F → Bool × Bool → Bool × Bool
  | .deleteMemory d, x => if d.memoryId = m then (true, x.2) else x
  | .updateMemoryContent u, x =>
    if u.embedding.isEmpty then x else if u.memoryId = m then (x.1, false) else x
  | _, x => x

lemma flags_changed (op : Op F) (st : MemoryState F) :
    (changed m op st).flags = flagsAfter m op st.flags := by
  cases op with
  | updateStateBatch | recordRecallBatch =>
    simp only [changed, flagsAfter]
    refine foldl_keeps (P := fun s : MemoryState F => s.flags = st.flags) (fun _ _ h => ?_) _ rfl
    exact h
  | updateState d =>
    simp only [changed, flagsAfter]
    split
    · exact st.flags_applyDelta _ _
    · rfl
  | recordOutcome r =>
    simp only [changed, flagsAfter, MemoryState.recordOutcome]
    split_ifs <;> rfl
  | putPayload | deleteMemory | demoteMemory | updateMemoryContent =>
    simp only [changed, flagsAfter]
    split_ifs <;> rfl
  | _ => rfl

/-- The flags of a memory behind an operation. -/
lemma flags_applyOp (op : Op F) (ctx : ApplyCtx F) (m : MemoryId) :
    ((applyOp op ctx).states m).map (·.flags) =
      (((ctx.states m).or (created m op)).map (·.flags)).map (flagsAfter m op) := by
  rw [states_applyOp, Option.map_map, Option.map_map]
  exact congrArg (Option.map · _) (funext (flags_changed op))

/-- No operation takes the mark of deletion away. -/
lemma Forgotten.applyOp (h : Forgotten ctx m) (op : Op F) : Forgotten (applyOp op ctx) m := by
  obtain ⟨st, hst, hdel⟩ := h
  refine ⟨changed m op st, by rw [states_applyOp, hst]; rfl, ?_⟩
  have hflags : (changed m op st).deleted = (flagsAfter m op st.flags).1 :=
    congrArg Prod.fst (flags_changed op st)
  rw [hflags]
  unfold flagsAfter
  split
  · split_ifs <;> trivial
  · split_ifs <;> exact hdel
  · exact hdel

end ChittaField
