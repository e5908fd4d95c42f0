import ChittaField.Store.EditRuns

/-!
# The count of the memories that wait for a vector

A memory that is stored without its vector waits until one comes.  How many wait is not counted when
it is asked for: each operation that lets a memory wait, or gives it its vector, adjusts a counter.

`pending_exact_iff` says along which runs the counter is right.
-/

namespace ChittaField

variable {F : Type}

/-- A memory lives and waits for its vector. -/
def ApplyCtx.waits (ctx : ApplyCtx F) (id : MemoryId) : Bool :=
  (ctx.states id).any fun st => st.embedPending && !st.deleted

/-- A memory waits for its vector, alive or not. -/
def ApplyCtx.flagged (ctx : ApplyCtx F) (id : MemoryId) : Bool :=
  (ctx.states id).any (·.embedPending)

/-- A memory waits for its vector though it is deleted. -/
def ApplyCtx.lost (ctx : ApplyCtx F) (id : MemoryId) : Bool :=
  (ctx.states id).any fun st => st.embedPending && st.deleted

/-- What an operation gives its vector, or deletes. -/
def settles : Op F → Option MemoryId
  | .deleteMemory d => some d.memoryId
  | .updateMemoryContent u => if u.embedding.isEmpty then none else some u.memoryId
  | _ => none

/-! ## The store -/

/-- A batch of vectors: the memories that get one, those of them that need a plan, and whether the
plan has been made. -/
structure BackfillStage where
  stagedIds : List MemoryId
  planIds : List MemoryId
  planned : Bool

/-- A store that counts the memories that wait. -/
structure EmbedQueue (F : Type) extends LiveStore F where
  /-- The memories with a state. -/
  ids : Finset MemoryId
  /-- The counter, before it wraps. -/
  pendingEmbedCount : ℤ
  backfillPlanStage : Option BackfillStage

/-- The memories that an open finds. -/
structure OpenedStore (F : Type) where
  live : LiveStore F
  ids : Finset MemoryId
  complete : ∀ id, live.ctx.states id ≠ none → id ∈ ids

/-- What a vector meets that comes: the clock, whether the log takes it, what the semantic index
finds next to it, the triplet that says that it is a copy and whether the log takes that and what
follows from it, and what the sparse encoder makes of it. -/
structure BackfillEnv (F : Type) where
  ts : ℤ
  append : Except FieldError Unit
  nearest : Option (MemoryId × F)
  merged : Except FieldError (SideOp F)
  superseded : Except FieldError Unit
  reinforced : Except FieldError Unit
  surprise : Option F
  encoded : List (SideOp F)

/-- A vector of a batch, and what it meets. -/
structure StageItem (F : Type) where
  memoryId : MemoryId
  embedding : List F
  ts : ℤ
  append : Except FieldError Unit
  needsPlan : Bool

namespace EmbedQueue

/-- The content that a memory has to have to be embedded again. -/
def minRequeueChars : ℕ := 10

/-- A call. -/
inductive Call (F : Type) where
  | putMemory (call : LiveStore.PutCall F) (env : LiveStore.PutEnv F)
  | forget (memoryId : MemoryId) (env : LiveStore.ForgetEnv F)
  | backfillEmbedding (memoryId : MemoryId) (embedding : List F) (env : BackfillEnv F)
  | backfillStage (items : List (StageItem F))
  | backfillPlan
  /-- `encoded` is what the sparse encoder makes of the memories of the batch. -/
  | backfillApply (encoded : ℕ → Option F × List (SideOp F))
  | forceClearEmbedPending (ids : List MemoryId)
  | purgeOrphanEmbedPending
  /-- `contains` says which memories the semantic index has. -/
  | requeueGhostEmbeddings (contains : MemoryId → Bool)
  | requeueAllEmbeddings
  /-- Apply the operations of other instances that have been collected. -/
  | syncForeignApply (ops : List (Op F))

variable (s : EmbedQueue F)

/-- What the counter says. -/
def rawPendingCount : UInt64 := UInt64.ofInt s.pendingEmbedCount

/-- The memories that wait. -/
def waiting : Finset MemoryId := s.ids.filter (s.ctx.waits · = true)

/-- A memory does not wait any more. -/
def clearPending (s : EmbedQueue F) (id : MemoryId) : EmbedQueue F :=
  if s.ctx.flagged id then
    { s with
      ctx := s.ctx.modifyState id ({ · with embedPending := false })
      pendingEmbedCount := s.pendingEmbedCount - 1 }
  else s

/-- A memory waits, if it lives and does not wait. -/
def markPending (s : EmbedQueue F) (id : MemoryId) : EmbedQueue F :=
  if (s.ctx.states id).any fun st => !st.embedPending && !st.deleted then
    { s with
      ctx := s.ctx.modifyState id ({ · with embedPending := true })
      pendingEmbedCount := s.pendingEmbedCount + 1 }
  else s

/-- The payload says by which model its vector has been computed. -/
def embedded (cfg : WriteConfig F) (ctx : ApplyCtx F) (id : MemoryId) : ApplyCtx F :=
  ctx.modifyPayload id fun p =>
    { p with
      embedding := []
      embeddingModel := cfg.embedModelId
      embeddingModelId := cfg.embedModelId
      embeddingDim := cfg.embedDim }

/-- Log the vector of a memory. -/
def logVector (cfg : WriteConfig F) (s : LiveStore F) (id : MemoryId) (embedding : List F) (ts : ℤ) :
    LiveStore F :=
  let content := ((s.ctx.payloads id).map MemoryPayload.content).getD []
  { s with
    ctx := embedded cfg s.ctx id
    wal := s.wal ++ [.updateMemoryContent ⟨id, content, embedding, ts⟩] }

/-- Encode a memory. -/
def encodeMemory (s : LiveStore F) (id : MemoryId) (surprise : Option F) (encoded : List (SideOp F)) :
    LiveStore F :=
  { s with
    ctx := surprise.elim s.ctx fun x => s.ctx.modifyState id ({ · with surprise := x }) }.logSide
      encoded

/-- The memory that a vector is a copy of: it is next to it, and lives in the same realm. -/
def supersededBy [F32 F] (cfg : WriteConfig F) (s : LiveStore F) (id : MemoryId)
    (nearest : Option (MemoryId × F)) : Option MemoryId :=
  nearest.bind fun top =>
    if top.1 ≠ id && F32.le cfg.dedupCosineThreshold top.2 && F32.lt top.2 cfg.dedupCosineUpper &&
        (s.ctx.payloads top.1).any (fun p =>
          some p.realm = (s.ctx.payloads id).map MemoryPayload.realm) && s.isAlive top.1
    then some top.1
    else none

/-- Mark a memory as superseded. -/
def markSuperseded [F32 F] (s : LiveStore F) (id : MemoryId) (ts : ℤ)
    (append : Except FieldError Unit) : LiveStore F :=
  if (s.ctx.states id).isNone || !append.isOk then s
  else
    let delta : StateDeltaOp F :=
      ⟨id, none, none, none, false, none, ts, some 1, none, none, none⟩
    { s with
      ctx := s.ctx.modifyState id (·.applyDelta delta ts)
      wal := s.wal ++ [.updateState delta] }

/-- What a copy leaves behind: it is superseded, and the original is reinforced. -/
def merge [F32 F] (s : LiveStore F) (id original : MemoryId) (triplet : SideOp F)
    (env : BackfillEnv F) : LiveStore F :=
  let s := markSuperseded (s.logSide [triplet]) id env.ts env.superseded
  (s.updateState original (some (F32.lit 0)) (some (F32.lit (2 / 100))) none true none env.ts
    env.reinforced).1

/-- Give a memory its vector. -/
def backfillEmbedding [F32 F] (cfg : WriteConfig F) (s : EmbedQueue F) (id : MemoryId)
    (embedding : List F) (env : BackfillEnv F) : EmbedQueue F × Except FieldError Unit :=
  if embedding.length ≠ cfg.embedDim then
    (s, .error (.invalidEmbedDim cfg.embedDim embedding.length))
  else if (s.ctx.states id).isNone then (s, .error (.notFound id))
  else if !s.ctx.flagged id then (s, .ok ())
  else
    match env.append with
    | .error e => (s, .error e)
    | .ok () =>
      let live := logVector cfg s.toLiveStore id embedding env.ts
      match supersededBy cfg live id env.nearest with
      | none =>
        (clearPending { s with toLiveStore := encodeMemory live id env.surprise env.encoded } id,
          .ok ())
      | some original =>
        match env.merged with
        | .error e => ({ s with toLiveStore := live }, .error e)
        | .ok triplet =>
          let live := merge live id original triplet env
          (clearPending { s with toLiveStore := encodeMemory live id env.surprise env.encoded } id,
            .ok ())

/-- Log the vectors of a batch that are waited for. -/
def stageItems (cfg : WriteConfig F) :
    List (StageItem F) → LiveStore F → LiveStore F × Except FieldError (List (StageItem F))
  | [], s => (s, .ok [])
  | item :: items, s =>
    if item.embedding.length ≠ cfg.embedDim then
      (s, .error (.invalidEmbedDim cfg.embedDim item.embedding.length))
    else if !s.ctx.flagged item.memoryId then stageItems cfg items s
    else
      match item.append with
      | .error e => (s, .error e)
      | .ok () =>
        let staged := stageItems cfg items
          (logVector cfg s item.memoryId item.embedding item.ts)
        (staged.1, staged.2.map (item :: ·))

/-- Log a batch of vectors. -/
def backfillStage (cfg : WriteConfig F) (s : EmbedQueue F) (items : List (StageItem F)) :
    EmbedQueue F :=
  let staged := stageItems cfg items s.toLiveStore
  match staged.2 with
  | .error _ => { s with toLiveStore := staged.1 }
  | .ok valid =>
    { s with
      toLiveStore := staged.1
      backfillPlanStage := some
        ⟨valid.map (·.memoryId), (valid.filter (·.needsPlan)).map (·.memoryId), false⟩ }

/-- Plan where the vectors of a batch go. -/
def backfillPlan (s : EmbedQueue F) : EmbedQueue F :=
  { s with
    backfillPlanStage := s.backfillPlanStage.map fun stage =>
      if stage.planIds.isEmpty then stage else { stage with planned := true } }

/-- The memories of a batch do not wait any more. -/
def backfillApply (s : EmbedQueue F) (encoded : ℕ → Option F × List (SideOp F)) : EmbedQueue F :=
  match s.backfillPlanStage with
  | none => s
  | some stage =>
    let live := stage.stagedIds.zipIdx.foldl (fun live p =>
      encodeMemory live p.1 (encoded p.2).1 (encoded p.2).2) s.toLiveStore
    stage.stagedIds.foldl clearPending { s with toLiveStore := live, backfillPlanStage := none }

/-- The memories that meet a condition, in the order in which they are walked. -/
def select (order : MemoryOrder) (cond : MemoryId → Bool) : List MemoryId :=
  (order.walk s.ids).filter cond

/-- Forget about the vectors of the memories that cannot be read. -/
def purgeOrphanEmbedPending (order : MemoryOrder) (s : EmbedQueue F) : EmbedQueue F :=
  (s.select order fun id => s.ctx.waits id && (s.ctx.payloads id).isNone).foldl clearPending s

/-- Wait for the vectors of the memories that have content, but none. -/
def requeueGhostEmbeddings (order : MemoryOrder) (s : EmbedQueue F) (contains : MemoryId → Bool) :
    EmbedQueue F :=
  (s.select order fun id =>
    (s.ctx.states id).any (fun st => !st.deleted && !st.embedPending) &&
      (s.ctx.payloads id).any (fun p => LiveStore.minEmbedChars ≤ p.content.length) &&
        !contains id).foldl markPending s

/-- Wait for new vectors of all memories that have content. -/
def requeueAllEmbeddings (order : MemoryOrder) (s : EmbedQueue F) : EmbedQueue F :=
  (s.select order fun id => s.ctx.isLive id &&
    (s.ctx.payloads id).any fun p => minRequeueChars ≤ p.content.length).foldl markPending s

variable [F32 F]

/-- Store a memory. -/
def putMemory (cfg : WriteConfig F) (s : EmbedQueue F) (call : LiveStore.PutCall F)
    (env : LiveStore.PutEnv F) : EmbedQueue F :=
  let live := (s.toLiveStore.putMemory cfg call env).1
  if KeyedStore.stores cfg s.toLiveStore call env then
    { s with
      toLiveStore := live
      ids := insert s.nextId s.ids
      pendingEmbedCount := s.pendingEmbedCount + if call.embedPending then 1 else 0 }
  else { s with toLiveStore := live }

/-- Apply operations of other instances. -/
def syncForeignApply (s : EmbedQueue F) (ops : List (Op F)) : EmbedQueue F :=
  { s with
    ctx := HdcField.applyOps s.ctx ops
    ids := s.ids ∪ HdcField.putIds ops }

/-- Make a call. -/
def call (cfg : WriteConfig F) (order : MemoryOrder) (s : EmbedQueue F) (c : Call F) :
    EmbedQueue F × List (Op F) :=
  match c with
  | .putMemory call env => (s.putMemory cfg call env, [])
  | .forget id env => ({ s with toLiveStore := (s.toLiveStore.forget id env).1 }, [])
  | .backfillEmbedding id embedding env => ((s.backfillEmbedding cfg id embedding env).1, [])
  | .backfillStage items => (s.backfillStage cfg items, [])
  | .backfillPlan => (s.backfillPlan, [])
  | .backfillApply encoded => (s.backfillApply encoded, [])
  | .forceClearEmbedPending ids => (ids.foldl clearPending s, [])
  | .purgeOrphanEmbedPending => (s.purgeOrphanEmbedPending order, [])
  | .requeueGhostEmbeddings contains => (s.requeueGhostEmbeddings order contains, [])
  | .requeueAllEmbeddings => (s.requeueAllEmbeddings order, [])
  | .syncForeignApply ops => (s.syncForeignApply ops, [])

end EmbedQueue

/-- An open counts the memories that wait. -/
def OpenedStore.queue (o : OpenedStore F) : EmbedQueue F where
  toLiveStore := o.live
  ids := o.ids
  pendingEmbedCount := (o.ids.filter (o.live.ctx.waits · = true)).card
  backfillPlanStage := none

/-! ## Flags -/

variable {g : Bool × Bool → Bool × Bool} {id : MemoryId}

namespace ApplyCtx

lemma waits_eq (ctx : ApplyCtx F) (id : MemoryId) :
    ctx.waits id = (ctx.flags id).any fun x => x.2 && !x.1 := by
  unfold waits flags
  cases ctx.states id <;> rfl

lemma lost_eq (ctx : ApplyCtx F) (id : MemoryId) :
    ctx.lost id = (ctx.flags id).any fun x => x.2 && x.1 := by
  unfold lost flags
  cases ctx.states id <;> rfl

lemma flagged_eq (ctx : ApplyCtx F) (id : MemoryId) :
    ctx.flagged id = (ctx.waits id || ctx.lost id) := by
  unfold flagged waits lost
  cases ctx.states id with
  | none => rfl
  | some st => cases hd : st.deleted <;> simp [hd]

lemma lost_eq_false_of_waits {ctx : ApplyCtx F} (h : ctx.waits id = true) : ctx.lost id = false := by
  unfold waits at h
  unfold lost
  cases hst : ctx.states id with
  | none => rfl
  | some st =>
    rw [hst, Option.any_some, Bool.and_eq_true, Bool.not_eq_true'] at h
    rw [Option.any_some, h.2, Bool.and_false]

lemma flags_eq_none {ctx : ApplyCtx F} : ctx.flags id = none ↔ ctx.states id = none :=
  Option.map_eq_none_iff

/-- An operation ends the waiting of the memory that it settles, and lets none wait. -/
lemma waits_applyOp [F32 F] (op : Op F) (ctx : ApplyCtx F) (id : MemoryId) :
    (applyOp op ctx).waits id = (ctx.waits id && decide (settles op ≠ some id)) := by
  rw [waits_eq, waits_eq, flags, flags_applyOp, flags]
  cases op with
  | putPayload put =>
    cases ctx.states id with
    | some st => simp [flagsAfter, settles]
    | none =>
      simp only [created, Option.none_or]
      split_ifs <;> rfl
  | deleteMemory d =>
    cases ctx.states id <;> by_cases hid : d.memoryId = id <;> simp [created, flagsAfter, settles, hid]
  | updateMemoryContent u =>
    cases ctx.states id <;> by_cases hid : u.memoryId = id <;>
      cases hempty : u.embedding.isEmpty <;> simp [created, flagsAfter, settles, hid, hempty]
  | _ => cases ctx.states id <;> exact (Bool.and_true _).symm

end ApplyCtx

/-! ## The counter and the memories that wait -/

namespace EmbedQueue

variable {s s' : EmbedQueue F}

/-- All memories with a state are known. -/
def Known (s : EmbedQueue F) : Prop := ∀ id, s.ctx.flags id ≠ none → id ∈ s.ids

/-- How far the counter is ahead of the memories that wait. -/
def drift (s : EmbedQueue F) : ℤ := s.pendingEmbedCount - s.waiting.card

/-- The counter is right, and so it has not gone below zero. -/
def Exact (s : EmbedQueue F) : Prop := s.pendingEmbedCount = s.waiting.card

lemma exact_iff_drift : s.Exact ↔ s.drift = 0 := sub_eq_zero.symm

lemma Known.mem_waiting (h : s.Known) : id ∈ s.waiting ↔ s.ctx.waits id = true := by
  refine Finset.mem_filter.trans (and_iff_right_of_imp fun hwaits => h id fun hnone => ?_)
  rw [ApplyCtx.waits_eq, hnone] at hwaits
  exact absurd hwaits Bool.false_ne_true

/-- A change of the store that does not matter to who waits. -/
structure Same (s s' : EmbedQueue F) : Prop where
  ids : s'.ids = s.ids
  count : s'.pendingEmbedCount = s.pendingEmbedCount
  flags : s'.ctx.flags = s.ctx.flags

lemma Same.known (h : s.Same s') (hs : s.Known) : s'.Known := by
  intro id hid
  rw [h.ids]
  exact hs id (h.flags ▸ hid)

lemma Same.drift (h : s.Same s') : s'.drift = s.drift := by
  have hwaits : s'.ctx.waits = s.ctx.waits := by
    funext id
    rw [ApplyCtx.waits_eq, ApplyCtx.waits_eq, h.flags]
  rw [EmbedQueue.drift, waiting, h.ids, h.count, hwaits]
  rfl

/-! ### One memory -/

lemma flags_clearPending (s : EmbedQueue F) (id : MemoryId) :
    (s.clearPending id).ctx.flags = Maps.modifyAt s.ctx.flags id fun x => (x.1, false) := by
  unfold EmbedQueue.clearPending
  split
  · exact s.ctx.flags_modifyState id fun _ => rfl
  · rename_i hidle
    refine (Function.update_eq_self_iff.mpr ?_).symm
    unfold ApplyCtx.flagged at hidle
    unfold ApplyCtx.flags
    cases hst : s.ctx.states id with
    | none => rfl
    | some st =>
      rw [hst, Option.any_some, Bool.not_eq_true] at hidle
      exact congrArg some (Prod.ext rfl hidle.symm)

lemma ids_clearPending (s : EmbedQueue F) (id : MemoryId) : (s.clearPending id).ids = s.ids := by
  unfold EmbedQueue.clearPending
  split <;> rfl

lemma Known.clearPending (h : s.Known) (id : MemoryId) : (s.clearPending id).Known := by
  intro x hx
  rw [ids_clearPending]
  rw [flags_clearPending] at hx
  exact h x fun hnone => hx (Maps.modifyAt_eq_none.mpr hnone)

lemma lost_clearPending (s : EmbedQueue F) (id x : MemoryId) :
    (s.clearPending id).ctx.lost x = (s.ctx.lost x && decide (x ≠ id)) := by
  rw [ApplyCtx.lost_eq, ApplyCtx.lost_eq, flags_clearPending]
  by_cases hx : x = id
  · subst hx
    rw [Maps.modifyAt_self]
    cases s.ctx.flags x <;> simp
  · simp [hx]

lemma waiting_clearPending (s : EmbedQueue F) (id : MemoryId) :
    (s.clearPending id).waiting = s.waiting.erase id := by
  have hwaits : ∀ x, (s.clearPending id).ctx.waits x = (s.ctx.waits x && decide (x ≠ id)) := by
    intro x
    rw [ApplyCtx.waits_eq, ApplyCtx.waits_eq, flags_clearPending]
    by_cases hx : x = id
    · subst hx
      rw [Maps.modifyAt_self]
      cases s.ctx.flags x <;> simp
    · simp [hx]
  ext x
  rw [waiting, ids_clearPending, Finset.mem_filter, hwaits, Bool.and_eq_true, decide_eq_true_eq,
    Finset.mem_erase, waiting, Finset.mem_filter]
  tauto

/-- A memory that does not wait any more is not counted any more; if it is deleted, it was not one of
those that wait. -/
lemma drift_clearPending (h : s.Known) (id : MemoryId) :
    (s.clearPending id).drift = s.drift - if s.ctx.lost id then 1 else 0 := by
  have hcount : (s.clearPending id).pendingEmbedCount =
      s.pendingEmbedCount - if s.ctx.flagged id then 1 else 0 := by
    unfold EmbedQueue.clearPending
    split <;> simp
  unfold EmbedQueue.drift
  rw [hcount, waiting_clearPending, ApplyCtx.flagged_eq]
  cases hwaits : s.ctx.waits id with
  | true =>
    have hcard := Finset.card_erase_add_one (h.mem_waiting.mpr hwaits)
    rw [ApplyCtx.lost_eq_false_of_waits hwaits, Bool.true_or, if_pos rfl, if_neg Bool.false_ne_true]
    omega
  | false =>
    have hnot : id ∉ s.waiting := fun hmem => by
      rw [h.mem_waiting.mp hmem] at hwaits
      exact Bool.noConfusion hwaits
    rw [Finset.erase_eq_of_notMem hnot, Bool.false_or]
    omega

/-- The counter is as far ahead as before when some memories do not wait any more iff none of them is
deleted. -/
lemma foldl_clearPending (h : s.Known) (ids : List MemoryId) :
    (ids.foldl clearPending s).Known ∧ (ids.foldl clearPending s).drift ≤ s.drift ∧
      ((ids.foldl clearPending s).drift = s.drift ↔ ∀ id ∈ ids, s.ctx.lost id = false) := by
  induction ids generalizing s with
  | nil => exact ⟨h, le_rfl, iff_of_true rfl (List.forall_mem_nil _)⟩
  | cons x ids ih =>
    obtain ⟨hknown, hle, hiff⟩ := ih (h.clearPending x)
    have hone := drift_clearPending h x
    rw [List.foldl_cons, List.forall_mem_cons]
    refine ⟨hknown, ?_, ?_⟩
    · split at hone <;> omega
    · cases hlost : s.ctx.lost x with
      | true =>
        rw [hlost, if_pos rfl] at hone
        refine iff_of_false (by omega) fun hall => Bool.noConfusion hall.1
      | false =>
        rw [hlost, if_neg Bool.false_ne_true, sub_zero] at hone
        rw [← hone, hiff]
        refine ⟨fun hall => ⟨rfl, fun id hid => ?_⟩, fun hall id hid => ?_⟩
        · by_cases hx : id = x
          · exact hx ▸ hlost
          · have hrest := hall id hid
            rwa [lost_clearPending, decide_eq_true hx, Bool.and_true] at hrest
        · rw [lost_clearPending, hall.2 id hid, Bool.false_and]

lemma Known.markPending (h : s.Known) (id : MemoryId) : (s.markPending id).Known := by
  unfold EmbedQueue.markPending
  split
  · intro x hx
    have hflags := s.ctx.flags_modifyState id (f := ({ · with embedPending := true }))
      (g := fun x => (x.1, true)) fun _ => rfl
    refine h x fun hnone => hx ?_
    exact (congrFun hflags x).trans (Maps.modifyAt_eq_none.mpr hnone)
  · exact h

/-- A memory that is to wait is counted and waits. -/
lemma drift_markPending (h : s.Known) (id : MemoryId) : (s.markPending id).drift = s.drift := by
  unfold EmbedQueue.markPending
  split
  · rename_i hidle
    obtain ⟨st, hst, hidle⟩ := (Option.any_eq_true _ _).mp hidle
    obtain ⟨hpending, hdeleted⟩ := Bool.and_eq_true_iff.mp hidle
    rw [Bool.not_eq_true'] at hpending hdeleted
    have hnot : id ∉ s.waiting := by
      rw [h.mem_waiting]
      simp [ApplyCtx.waits, hst, hpending]
    have hknown : id ∈ s.ids := h id fun hnone => by
      rw [ApplyCtx.flags_eq_none, hst] at hnone
      exact absurd hnone nofun
    have hinsert : ({ s with
        ctx := s.ctx.modifyState id ({ · with embedPending := true })
        pendingEmbedCount := s.pendingEmbedCount + 1 } : EmbedQueue F).waiting =
        insert id s.waiting := by
      ext x
      simp only [waiting, Finset.mem_filter, Finset.mem_insert]
      by_cases hx : x = id
      · subst hx
        simp [ApplyCtx.waits, ApplyCtx.modifyState, hst, hdeleted, hknown]
      · simp [ApplyCtx.waits, ApplyCtx.modifyState, hx]
    unfold EmbedQueue.drift
    rw [hinsert, Finset.card_insert_of_notMem hnot]
    push_cast
    omega
  · rfl

lemma foldl_markPending (h : s.Known) (ids : List MemoryId) :
    (ids.foldl markPending s).Known ∧ (ids.foldl markPending s).drift = s.drift := by
  induction ids generalizing s with
  | nil => exact ⟨h, rfl⟩
  | cons x ids ih =>
    obtain ⟨hknown, hdrift⟩ := ih (h.markPending x)
    exact ⟨hknown, hdrift.trans (drift_markPending h x)⟩

/-! ### A batch -/

lemma flags_encodeMemory (live : LiveStore F) (id : MemoryId) (surprise : Option F)
    (encoded : List (SideOp F)) :
    (encodeMemory live id surprise encoded).ctx.flags = live.ctx.flags := by
  cases surprise with
  | none => rfl
  | some x => exact live.ctx.flags_modifyState_of_eq id fun _ => rfl

lemma flags_stageItems (cfg : WriteConfig F) (items : List (StageItem F)) (live : LiveStore F) :
    (stageItems cfg items live).1.ctx.flags = live.ctx.flags := by
  induction items generalizing live with
  | nil => rfl
  | cons item items ih =>
    unfold stageItems
    split
    · rfl
    · split
      · exact ih live
      · cases item.append with
        | error e => rfl
        | ok u => exact ih _

lemma same_backfillStage (cfg : WriteConfig F) (s : EmbedQueue F) (items : List (StageItem F)) :
    s.Same (s.backfillStage cfg items) := by
  have hflags := flags_stageItems cfg items s.toLiveStore
  unfold EmbedQueue.backfillStage
  dsimp only
  split <;> exact ⟨rfl, rfl, hflags⟩

/-- The staged memories, when a batch is applied. -/
lemma backfillApply_eq (s : EmbedQueue F) (encoded : ℕ → Option F × List (SideOp F)) :
    ∃ s', s.Same s' ∧ s.backfillApply encoded =
      ((s.backfillPlanStage.map (·.stagedIds)).getD []).foldl clearPending s' := by
  unfold EmbedQueue.backfillApply
  cases hstage : s.backfillPlanStage with
  | none => exact ⟨s, ⟨rfl, rfl, rfl⟩, rfl⟩
  | some stage =>
    refine ⟨{ s with
      toLiveStore := stage.stagedIds.zipIdx.foldl (fun live p =>
        encodeMemory live p.1 (encoded p.2).1 (encoded p.2).2) s.toLiveStore
      backfillPlanStage := none }, ⟨rfl, rfl, ?_⟩, rfl⟩
    exact List.foldlRecOn (motive := fun live : LiveStore F => live.ctx.flags = s.ctx.flags) _ _ rfl
      fun live h p _ => (flags_encodeMemory live p.1 _ _).trans h

lemma lost_of_same (h : s.Same s') (id : MemoryId) : s'.ctx.lost id = s.ctx.lost id := by
  rw [ApplyCtx.lost_eq, ApplyCtx.lost_eq, h.flags]

/-! ### A memory that ceases to wait and is still counted -/

/-- A memory that waits and ceases to is still counted. -/
lemma drift_retire (h : s.Known) (hids : s'.ids = s.ids)
    (hcount : s'.pendingEmbedCount = s.pendingEmbedCount)
    (hflags : s'.ctx.flags = Maps.modifyAt s.ctx.flags id g) (hg : ∀ x, ((g x).2 && !(g x).1) = false) :
    s'.drift = s.drift + if s.ctx.waits id then 1 else 0 := by
  have herase : s'.waiting = s.waiting.erase id := by
    ext x
    rw [waiting, hids, Finset.mem_filter, Finset.mem_erase, waiting, Finset.mem_filter,
      ApplyCtx.waits_eq, ApplyCtx.waits_eq, hflags]
    by_cases hx : x = id
    · subst hx
      rw [Maps.modifyAt_self]
      cases s.ctx.flags x <;> simp [hg]
    · simp [hx]
  rw [drift, drift, hcount, herase]
  cases hwaits : s.ctx.waits id with
  | true =>
    have hcard := Finset.card_erase_add_one (h.mem_waiting.mpr hwaits)
    rw [if_pos rfl]
    omega
  | false =>
    have hnot : id ∉ s.waiting := fun hmem => by
      rw [h.mem_waiting.mp hmem] at hwaits
      exact Bool.noConfusion hwaits
    rw [Finset.erase_eq_of_notMem hnot, if_neg Bool.false_ne_true, add_zero]

lemma known_retire (h : s.Known) (hids : s'.ids = s.ids)
    (hflags : s'.ctx.flags = Maps.modifyAt s.ctx.flags id g) : s'.Known := by
  intro x hx
  rw [hids]
  rw [hflags] at hx
  exact h x fun hnone => hx (Maps.modifyAt_eq_none.mpr hnone)

lemma flags_forget (live : LiveStore F) (id : MemoryId) (env : LiveStore.ForgetEnv F) :
    (live.forget id env).1.ctx.flags =
      if env.append.isOk && env.sync.isOk then
        Maps.modifyAt live.ctx.flags id fun x => (true, x.2)
      else live.ctx.flags := by
  unfold LiveStore.forget
  cases hst : live.ctx.states id with
  | none =>
    dsimp only
    rw [Maps.modifyAt_of_none (ApplyCtx.flags_eq_none.mpr hst), ite_self]
  | some st =>
    cases env.append with
    | error e => rfl
    | ok u =>
      cases env.sync with
      | error e => rfl
      | ok u' => exact live.ctx.flags_modifyState id fun _ => rfl

/-! ### Operations of other instances -/

variable [F32 F]

lemma waits_applyOps (ops : List (Op F)) (ctx : ApplyCtx F) (id : MemoryId) :
    (HdcField.applyOps ctx ops).waits id =
      (ctx.waits id && ops.all fun op => settles op ≠ some id) := by
  induction ops generalizing ctx with
  | nil => exact (Bool.and_true _).symm
  | cons op ops ih =>
    refine (ih _).trans ?_
    rw [ApplyCtx.waits_applyOp, List.all_cons, Bool.and_assoc]

lemma Known.syncForeignApply (h : s.Known) (ops : List (Op F)) : (s.syncForeignApply ops).Known := by
  intro id hid
  have hknows : ∀ (ops : List (Op F)) (ctx : ApplyCtx F),
      (HdcField.applyOps ctx ops).states id ≠ none →
        ctx.states id ≠ none ∨ id ∈ HdcField.putIds ops := by
    intro ops
    induction ops with
    | nil => exact fun ctx hne => Or.inl hne
    | cons op ops ih =>
      intro ctx hne
      have hputs : HdcField.putIds (op :: ops) = HdcField.putIds [op] ∪ HdcField.putIds ops := by
        unfold HdcField.putIds
        rw [← List.toFinset_append, ← List.filterMap_append, List.singleton_append]
      rw [hputs, Finset.mem_union]
      rcases ih _ hne with hop | hmem
      · have hlearn := congrFun (knows_applyOp op ctx) id
        rw [ApplyCtx.knows, Option.isSome_iff_ne_none.mpr hop, learn, eq_comm, Bool.or_eq_true] at hlearn
        rcases hlearn with hold | hnew
        · exact Or.inl (Option.isSome_iff_ne_none.mp hold)
        · exact Or.inr (Or.inl (HdcField.mem_putIds (of_decide_eq_true hnew)))
      · exact Or.inr (Or.inr hmem)
  refine Finset.mem_union.mpr ((hknows ops s.ctx fun hnone => hid ?_).imp_left fun hold => ?_)
  · exact ApplyCtx.flags_eq_none.mpr hnone
  · exact h id fun hnone => hold (ApplyCtx.flags_eq_none.mp hnone)

/-- Operations of other instances do not touch the counter, so they must settle no memory that
waits. -/
lemma drift_syncForeignApply (h : s.Known) (ops : List (Op F)) :
    (s.syncForeignApply ops).drift = s.drift ↔
      ∀ op ∈ ops, ∀ id, settles op = some id → s.ctx.waits id = false := by
  have hmem : ∀ id, id ∈ (s.syncForeignApply ops).waiting ↔
      id ∈ s.waiting ∧ ∀ op ∈ ops, settles op ≠ some id := by
    intro id
    rw [(h.syncForeignApply ops).mem_waiting, h.mem_waiting]
    exact (Bool.eq_iff_iff.mp (waits_applyOps ops s.ctx id)).trans (by simp)
  have hsub : (s.syncForeignApply ops).waiting ⊆ s.waiting := fun id hid => ((hmem id).mp hid).1
  have hcount : (s.syncForeignApply ops).pendingEmbedCount = s.pendingEmbedCount := rfl
  unfold drift
  rw [hcount]
  constructor
  · intro heq op hop id hsettles
    by_contra hwaits
    rw [Bool.not_eq_false] at hwaits
    have hall := Finset.eq_of_subset_of_card_le hsub (by omega)
    exact ((hmem id).mp (hall ▸ h.mem_waiting.mpr hwaits)).2 op hop hsettles
  · intro hall
    have heq : (s.syncForeignApply ops).waiting = s.waiting := by
      refine hsub.antisymm fun id hid => (hmem id).mpr ⟨hid, fun op hop hsettles => ?_⟩
      rw [h.mem_waiting, hall op hop id hsettles] at hid
      exact Bool.false_ne_true hid
    rw [heq]

/-! ### Storing, and giving a vector -/

lemma known_putMemory (h : s.Known) (cfg : WriteConfig F) (call : LiveStore.PutCall F)
    (env : LiveStore.PutEnv F) : (s.putMemory cfg call env).Known := by
  unfold EmbedQueue.putMemory
  by_cases hstores : s.Stores cfg call env
  · rw [if_pos (KeyedStore.stores_iff.mpr hstores)]
    intro id hid
    refine Finset.mem_insert.mpr (or_iff_not_imp_left.mpr fun hne => h id fun hnone => hid ?_)
    refine (congrFun ((LiveStore.putMemory_stores hstores).1.flags.trans
      (LiveStore.flags_kept cfg s.toLiveStore call env)) id).trans ?_
    exact (Function.update_of_ne hne _ _).trans hnone
  · rw [if_neg (fun hs => hstores (KeyedStore.stores_iff.mp hs))]
    intro id hid
    obtain ⟨n, -, hquiet⟩ := LiveStore.putMemory_idle hstores
    exact h id fun hnone => hid ((congrFun hquiet.flags id).trans hnone)

/-- The counter is right when a memory is stored, if the id of the new memory is not that of one that
waits. -/
lemma drift_putMemory (h : s.Known) (cfg : WriteConfig F) (call : LiveStore.PutCall F)
    (env : LiveStore.PutEnv F) : (s.putMemory cfg call env).drift = s.drift ↔
      (s.Stores cfg call env → s.ctx.waits s.nextId = false) := by
  by_cases hstores : s.Stores cfg call env
  · have hwaits : ∀ x, (s.putMemory cfg call env).ctx.waits x =
        if x = s.nextId then call.embedPending else s.ctx.waits x := by
      intro x
      have hflags := (LiveStore.putMemory_stores hstores).1.flags.trans
        (LiveStore.flags_kept cfg s.toLiveStore call env)
      unfold EmbedQueue.putMemory
      rw [if_pos (KeyedStore.stores_iff.mpr hstores), ApplyCtx.waits_eq, ApplyCtx.waits_eq]
      dsimp only
      rw [hflags]
      by_cases hx : x = s.nextId
      · subst hx
        simp
      · simp [hx]
    have hparts : (s.putMemory cfg call env).ids = insert s.nextId s.ids ∧
        (s.putMemory cfg call env).pendingEmbedCount =
          s.pendingEmbedCount + if call.embedPending then 1 else 0 := by
      unfold EmbedQueue.putMemory
      rw [if_pos (KeyedStore.stores_iff.mpr hstores)]
      exact ⟨rfl, rfl⟩
    have hwaiting : (s.putMemory cfg call env).waiting =
        if call.embedPending then insert s.nextId s.waiting else s.waiting.erase s.nextId := by
      ext x
      rw [waiting, Finset.mem_filter, hparts.1, hwaits, Finset.mem_insert]
      by_cases hx : x = s.nextId
      · cases call.embedPending <;> simp [hx]
      · cases call.embedPending <;> simp [hx, waiting]
    unfold EmbedQueue.drift
    rw [hwaiting, hparts.2, imp_iff_right hstores]
    cases hold : s.ctx.waits s.nextId with
    | true =>
      have hmem := h.mem_waiting.mpr hold
      have hcard := Finset.card_erase_add_one hmem
      refine iff_of_false ?_ (fun hfalse => Bool.noConfusion hfalse)
      cases call.embedPending with
      | true =>
        rw [if_pos rfl, if_pos rfl, Finset.insert_eq_of_mem hmem]
        omega
      | false =>
        rw [if_neg Bool.false_ne_true, if_neg Bool.false_ne_true]
        omega
    | false =>
      have hnot : s.nextId ∉ s.waiting := fun hmem => by
        rw [h.mem_waiting.mp hmem] at hold
        exact Bool.noConfusion hold
      refine iff_of_true ?_ rfl
      cases call.embedPending with
      | true =>
        rw [if_pos rfl, if_pos rfl, Finset.card_insert_of_notMem hnot]
        omega
      | false =>
        rw [if_neg Bool.false_ne_true, if_neg Bool.false_ne_true, Finset.erase_eq_of_notMem hnot]
        omega
  · refine iff_of_true ?_ fun hs => absurd hs hstores
    have hsame : s.Same (s.putMemory cfg call env) := by
      unfold EmbedQueue.putMemory
      rw [if_neg (fun hs => hstores (KeyedStore.stores_iff.mp hs))]
      obtain ⟨n, -, hquiet⟩ := LiveStore.putMemory_idle hstores
      exact ⟨rfl, rfl, hquiet.flags⟩
    exact hsame.drift

lemma flags_merge (live : LiveStore F) (id original : MemoryId) (triplet : SideOp F)
    (env : BackfillEnv F) : (merge live id original triplet env).ctx.flags = live.ctx.flags := by
  have hmarked : (markSuperseded (live.logSide [triplet]) id env.ts env.superseded).ctx.flags =
      live.ctx.flags := by
    unfold markSuperseded
    split
    · rfl
    · exact live.ctx.flags_modifyState_of_eq id fun st => st.flags_applyDelta _ _
  exact (LiveStore.Quiet.updateState _ _ _ _ _ _ _ _ _).flags.trans hmarked

/-- A vector comes for a memory that waits, and the log takes it. -/
def Arrives (cfg : WriteConfig F) (s : EmbedQueue F) (id : MemoryId) (embedding : List F)
    (env : BackfillEnv F) : Prop :=
  embedding.length = cfg.embedDim ∧ env.append.isOk = true ∧
    (env.merged.isOk = true ∨
      supersededBy cfg (logVector cfg s.toLiveStore id embedding env.ts) id env.nearest = none)

/-- A vector that comes ends the waiting; else nothing changes that matters. -/
lemma backfillEmbedding_cases (cfg : WriteConfig F) (s : EmbedQueue F) (id : MemoryId)
    (embedding : List F) (env : BackfillEnv F) :
    (s.Arrives cfg id embedding env ∧
      ∃ s', s.Same s' ∧ (s.backfillEmbedding cfg id embedding env).1 = s'.clearPending id) ∨
    s.Same (s.backfillEmbedding cfg id embedding env).1 ∧
      (s.Arrives cfg id embedding env → s.ctx.lost id = false) := by
  unfold EmbedQueue.backfillEmbedding Arrives
  split
  · rename_i hdim
    exact Or.inr ⟨⟨rfl, rfl, rfl⟩, fun h => absurd h.1 hdim⟩
  · rename_i hdim
    split
    · rename_i hnone
      refine Or.inr ⟨⟨rfl, rfl, rfl⟩, fun _ => ?_⟩
      rw [ApplyCtx.lost, Option.isNone_iff_eq_none.mp hnone]
      rfl
    · split
      · rename_i hidle
        rw [ApplyCtx.flagged_eq, Bool.not_eq_true', Bool.or_eq_false_iff] at hidle
        exact Or.inr ⟨⟨rfl, rfl, rfl⟩, fun _ => hidle.2⟩
      · cases happend : env.append with
        | error e => exact Or.inr ⟨⟨rfl, rfl, rfl⟩, fun h => absurd h.2.1 nofun⟩
        | ok u =>
          cases hsuper : supersededBy cfg (logVector cfg s.toLiveStore id embedding env.ts) id
              env.nearest with
          | none =>
            refine Or.inl ⟨⟨not_not.mp hdim, rfl, Or.inr rfl⟩, { s with
              toLiveStore := encodeMemory (logVector cfg s.toLiveStore id embedding env.ts) id
                env.surprise env.encoded }, ⟨rfl, rfl, ?_⟩, ?_⟩
            · exact flags_encodeMemory _ _ _ _
            · simp only [hsuper]
          | some original =>
            cases hmerged : env.merged with
            | error e =>
              refine Or.inr ⟨?_, fun h => absurd h.2.2 (not_or.mpr ⟨nofun, nofun⟩)⟩
              simp only [hsuper]
              exact ⟨rfl, rfl, rfl⟩
            | ok triplet =>
              refine Or.inl ⟨⟨not_not.mp hdim, rfl, Or.inl rfl⟩, { s with
                toLiveStore := encodeMemory (merge (logVector cfg s.toLiveStore id embedding env.ts)
                  id original triplet env) id env.surprise env.encoded }, ⟨rfl, rfl, ?_⟩, ?_⟩
              · exact (flags_encodeMemory _ _ _ _).trans (flags_merge _ _ _ _ _)
              · simp only [hsuper]

/-! ### Runs -/

/-- A call that adjusts the counter as it should: the id of a new memory is not that of one that
waits; none is forgotten, and none is settled by an operation of another instance, that waits; and
none that is deleted gets its vector or is said not to wait. -/
def Balanced (cfg : WriteConfig F) (s : EmbedQueue F) : Call F → Prop
  | .putMemory call env => s.Stores cfg call env → s.ctx.waits s.nextId = false
  | .forget id env => env.append.isOk = true → env.sync.isOk = true → s.ctx.waits id = false
  | .backfillEmbedding id embedding env => s.Arrives cfg id embedding env → s.ctx.lost id = false
  | .backfillApply _ => ∀ stage ∈ s.backfillPlanStage, ∀ id ∈ stage.stagedIds, s.ctx.lost id = false
  | .forceClearEmbedPending ids => ∀ id ∈ ids, s.ctx.lost id = false
  | .syncForeignApply ops => ∀ op ∈ ops, ∀ id, settles op = some id → s.ctx.waits id = false
  | _ => True

/-- A call keeps the memories known, and it keeps how far the counter is ahead iff it is balanced. -/
lemma call_drift (cfg : WriteConfig F) (order : MemoryOrder) (h : s.Known) (c : Call F) :
    (call cfg order s c).1.Known ∧
      ((call cfg order s c).1.drift = s.drift ↔ Balanced cfg s c) := by
  cases c with
  | putMemory call env => exact ⟨known_putMemory h cfg call env, drift_putMemory h cfg call env⟩
  | forget id env =>
    have hflags := flags_forget s.toLiveStore id env
    simp only [call, Balanced]
    by_cases hdone : (env.append.isOk && env.sync.isOk) = true
    · rw [if_pos hdone] at hflags
      obtain ⟨happend, hsync⟩ := Bool.and_eq_true_iff.mp hdone
      have hdrift : ({ s with toLiveStore := (s.toLiveStore.forget id env).1 } : EmbedQueue F).drift =
          s.drift + if s.ctx.waits id then 1 else 0 :=
        drift_retire h rfl rfl hflags fun _ => Bool.and_false _
      refine ⟨known_retire h rfl hflags, ?_⟩
      rw [hdrift, imp_iff_right happend, imp_iff_right hsync]
      cases s.ctx.waits id <;> simp
    · rw [if_neg hdone] at hflags
      have hsame : s.Same { s with toLiveStore := (s.toLiveStore.forget id env).1 } :=
        ⟨rfl, rfl, hflags⟩
      refine ⟨hsame.known h, iff_of_true hsame.drift fun happend hsync => absurd ?_ hdone⟩
      exact Bool.and_eq_true_iff.mpr ⟨happend, hsync⟩
  | backfillEmbedding id embedding env =>
    simp only [call, Balanced]
    rcases s.backfillEmbedding_cases cfg id embedding env with
      ⟨harrives, s', hsame, heq⟩ | ⟨hsame, hlost⟩
    · rw [heq]
      refine ⟨(hsame.known h).clearPending id, ?_⟩
      rw [drift_clearPending (hsame.known h), hsame.drift, lost_of_same hsame, imp_iff_right harrives]
      cases s.ctx.lost id <;> simp
    · exact ⟨hsame.known h, iff_of_true hsame.drift hlost⟩
  | backfillStage items =>
    have hsame := same_backfillStage cfg s items
    exact ⟨hsame.known h, iff_of_true hsame.drift trivial⟩
  | backfillPlan =>
    have hsame : s.Same s.backfillPlan := ⟨rfl, rfl, rfl⟩
    exact ⟨hsame.known h, iff_of_true hsame.drift trivial⟩
  | backfillApply encoded =>
    obtain ⟨s', hsame, heq⟩ := s.backfillApply_eq encoded
    obtain ⟨hknown, -, hiff⟩ := foldl_clearPending (hsame.known h)
      ((s.backfillPlanStage.map (·.stagedIds)).getD [])
    simp only [call, Balanced]
    rw [heq]
    refine ⟨hknown, ?_⟩
    rw [← hsame.drift, hiff]
    simp only [lost_of_same hsame]
    cases s.backfillPlanStage <;> simp
  | forceClearEmbedPending ids =>
    obtain ⟨hknown, -, hiff⟩ := foldl_clearPending h ids
    exact ⟨hknown, hiff⟩
  | purgeOrphanEmbedPending =>
    obtain ⟨hknown, -, hiff⟩ := foldl_clearPending h
      (s.select order fun id => s.ctx.waits id && (s.ctx.payloads id).isNone)
    refine ⟨hknown, iff_of_true (hiff.mpr fun id hid => ?_) trivial⟩
    have hcond := (List.mem_filter.mp hid).2
    rw [Bool.and_eq_true] at hcond
    exact ApplyCtx.lost_eq_false_of_waits hcond.1
  | requeueGhostEmbeddings contains =>
    obtain ⟨hknown, hdrift⟩ := foldl_markPending h (s.select order fun id =>
      (s.ctx.states id).any (fun st => !st.deleted && !st.embedPending) &&
        (s.ctx.payloads id).any (fun p => LiveStore.minEmbedChars ≤ p.content.length) &&
          !contains id)
    exact ⟨hknown, iff_of_true hdrift trivial⟩
  | requeueAllEmbeddings =>
    obtain ⟨hknown, hdrift⟩ := foldl_markPending h (s.select order fun id => s.ctx.isLive id &&
      (s.ctx.payloads id).any fun p => minRequeueChars ≤ p.content.length)
    exact ⟨hknown, iff_of_true hdrift trivial⟩
  | syncForeignApply ops => exact ⟨h.syncForeignApply ops, drift_syncForeignApply h ops⟩

/-- The counter is right behind every call of a run iff all calls of the run are balanced. -/
theorem pending_exact_iff (cfg : WriteConfig F) (order : MemoryOrder) (o : OpenedStore F)
    (calls : List (Call F)) :
    o.queue.Exact ∧ Replayed.All (call cfg order) (fun s c => (call cfg order s c).1.Exact) o.queue
        calls ↔
      Replayed.All (call cfg order) (Balanced cfg) o.queue calls := by
  have hopened : o.queue.Exact := rfl
  have hknown : o.queue.Known := fun id hid =>
    o.complete id fun hnone => hid (ApplyCtx.flags_eq_none.mpr hnone)
  rw [and_iff_right hopened]
  refine Replayed.all_iff Known Exact (fun s c h => (call_drift cfg order h c).1)
    (fun s c h hexact => ?_) hknown hopened
  have hdrift := (call_drift cfg order h c).2
  rwa [exact_iff_drift.mp hexact, ← exact_iff_drift] at hdrift

/-- An open that finds nothing. -/
def openedEmpty : OpenedStore ℚ := ⟨.empty 1, ∅, fun _ hne => absurd rfl hne⟩

/-- Store a memory without a vector, and forget it. -/
def forgetWaiting : List (Call ℚ) :=
  [.putMemory ⟨"insight", "work", List.replicate 20 104, [], 1, 1 / 1000, 0, [], none, none⟩
      ⟨5, none, [], none, none, [], [], .ok (), [], .ok [], fun _ => ⟨[], .ok ()⟩⟩,
    .forget 1 ⟨6, .ok (), .ok (), []⟩]

/-- The memory that has been forgotten is still counted. -/
theorem forgotten_memory_counted :
    (Replayed.run (call sampleConfig HdcField.sampleOrder) openedEmpty.queue
      forgetWaiting).1.rawPendingCount = 1 ∧
    (Replayed.run (call sampleConfig HdcField.sampleOrder) openedEmpty.queue
      forgetWaiting).1.waiting = ∅ := by
  decide +kernel

end EmbedQueue

end ChittaField
