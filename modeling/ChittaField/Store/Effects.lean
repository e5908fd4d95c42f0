import ChittaField.Memory.Lifecycle
import ChittaField.Store.Agreement

/-!
# What the live operations do to memories

A call that stores a memory adds its payload and its state, and one that forgets a memory marks it
and drops its content.  Everything else that a call does is quiet: it changes no payload, it deletes
nothing, and it logs neither a new memory nor a deletion.
-/

namespace ChittaField

variable {F : Type}

namespace ApplyCtx

/-- Whether a memory is deleted, if it is there. -/
def status (ctx : ApplyCtx F) (id : MemoryId) : Option Bool := (ctx.states id).map (·.deleted)

/-- Whether a memory is deleted, and whether it waits, if it is there. -/
def flags (ctx : ApplyCtx F) (id : MemoryId) : Option (Bool × Bool) := (ctx.states id).map (·.flags)

lemma status_eq (ctx : ApplyCtx F) (id : MemoryId) : ctx.status id = (ctx.flags id).map Prod.fst := by
  rw [flags, Option.map_map]
  rfl

variable {g : Bool × Bool → Bool × Bool} {f : MemoryState F → MemoryState F}

lemma flags_modifyState (ctx : ApplyCtx F) (id : MemoryId) (hf : ∀ st, (f st).flags = g st.flags) :
    (ctx.modifyState id f).flags = Maps.modifyAt ctx.flags id g :=
  Maps.map_modifyAt hf

/-- A change of a state that leaves its flags alone. -/
lemma flags_modifyState_of_eq (ctx : ApplyCtx F) (id : MemoryId) (hf : ∀ st, (f st).flags = st.flags) :
    (ctx.modifyState id f).flags = ctx.flags := by
  refine (ctx.flags_modifyState (g := fun x => x) id hf).trans (Function.update_eq_self_iff.mpr ?_)
  exact Option.map_id' ..

end ApplyCtx

/-- An operation that neither stores nor deletes a memory, nor changes a payload. -/
def isQuietOp : Op F → Bool
  | .updateState _ => true
  | .addAssocEdge _ => true
  | op => isSideOp op

/-- The operations beside the memories are such. -/
lemma isQuietOp_side (op : SideOp F) : isQuietOp op.val = true := by
  obtain ⟨op, hside⟩ := op
  cases op with
  | updateState _ => rfl
  | addAssocEdge _ => rfl
  | _ => exact hside

namespace LiveStore

lemma isAlive_eq (s : LiveStore F) (id : MemoryId) :
    s.isAlive id = decide (s.ctx.status id = some false) := by
  unfold isAlive ApplyCtx.status
  cases s.ctx.states id with
  | none => rfl
  | some st => cases hd : st.deleted <;> simp [hd]

/-- A call that changes no memory. -/
structure Quiet (s s' : LiveStore F) : Prop where
  payloads : s'.ctx.payloads = s.ctx.payloads
  flags : s'.ctx.flags = s.ctx.flags
  nextId : s'.nextId = s.nextId
  chunkHashIdx : s'.chunkHashIdx = s.chunkHashIdx
  contentProvIdx : s'.contentProvIdx = s.contentProvIdx
  wal : ∃ ops, s'.wal = s.wal ++ ops ∧ ∀ op ∈ ops, isQuietOp op = true

namespace Quiet

variable {s s' s'' : LiveStore F}

lemma refl (s : LiveStore F) : s.Quiet s := ⟨rfl, rfl, rfl, rfl, rfl, [], (List.append_nil _).symm, by simp⟩

lemma trans (h : s.Quiet s') (h' : s'.Quiet s'') : s.Quiet s'' := by
  obtain ⟨ops, hwal, hops⟩ := h.wal
  obtain ⟨ops', hwal', hops'⟩ := h'.wal
  refine ⟨h'.payloads.trans h.payloads, h'.flags.trans h.flags, h'.nextId.trans h.nextId,
    h'.chunkHashIdx.trans h.chunkHashIdx, h'.contentProvIdx.trans h.contentProvIdx, ops ++ ops', ?_,
    List.forall_mem_append.mpr ⟨hops, hops'⟩⟩
  rw [hwal', hwal, List.append_assoc]

lemma status (h : s.Quiet s') : s'.ctx.status = s.ctx.status := by
  funext id
  rw [ApplyCtx.status_eq, ApplyCtx.status_eq, h.flags]

lemma isAlive (h : s.Quiet s') (id : MemoryId) : s'.isAlive id = s.isAlive id := by
  rw [isAlive_eq, isAlive_eq, h.status]

/-- To log them changes the log only. -/
lemma logSide (s : LiveStore F) (ops : List (SideOp F)) : s.Quiet (s.logSide ops) := by
  refine ⟨rfl, rfl, rfl, rfl, rfl, ops.map Subtype.val, rfl, fun op hop => ?_⟩
  obtain ⟨side, -, rfl⟩ := List.mem_map.mp hop
  exact isQuietOp_side side

variable [F32 F]

lemma updateState (s : LiveStore F) (id : MemoryId) (strengthDelta confidenceDelta : Option F)
    (decayRate : Option F) (touch : Bool) (pin : Option Bool) (ts : ℤ)
    (append : Except FieldError Unit) :
    s.Quiet (s.updateState id strengthDelta confidenceDelta decayRate touch pin ts append).1 := by
  unfold LiveStore.updateState
  cases hstate : s.ctx.states id with
  | none => exact refl s
  | some state =>
    dsimp only
    split
    · exact refl s
    · cases append with
      | error e => exact refl s
      | ok =>
        exact ⟨rfl, s.ctx.flags_modifyState_of_eq id fun st => st.flags_applyDelta _ ts, rfl, rfl, rfl,
          _, rfl, by simp [isQuietOp]⟩

lemma addAssocEdge (s : LiveStore F) (src dst : MemoryId) (edgeType : EdgeType) (weight : F)
    (env : EdgeEnv F) : s.Quiet (s.addAssocEdge src dst edgeType weight env).1 := by
  rcases s.addAssocEdge_cases src dst edgeType weight env with ⟨ops, heq⟩ | ⟨-, heq⟩
  · rw [heq]
    exact logSide s ops
  · rw [heq]
    exact ⟨rfl, rfl, rfl, rfl, rfl, _, rfl, by simp [isQuietOp]⟩

lemma densifyLoop (newId : MemoryId) (env : MemoryId × MemoryId → EdgeEnv F)
    (prevs : List MemoryId) (weight : F) (s : LiveStore F) :
    s.Quiet (densifyLoop newId env prevs weight s) := by
  induction prevs generalizing weight s with
  | nil => exact refl s
  | cons prev rest ih =>
    exact ((addAssocEdge s ..).trans (addAssocEdge _ ..)).trans (ih _ _)

lemma densifyWriteEdges (cfg : WriteConfig F) (s : LiveStore F) (newId : MemoryId) (realm : String)
    (session : Option String) (env : MemoryId × MemoryId → EdgeEnv F) :
    s.Quiet (s.densifyWriteEdges cfg newId realm session env) := by
  unfold LiveStore.densifyWriteEdges
  cases session with
  | none => exact refl s
  | some session =>
    dsimp only
    split
    · exact refl s
    · obtain ⟨hp, hs, hn, hc, hprov, hwal⟩ :=
        densifyLoop newId env (s.siblings newId realm session) (F32.lit (6 / 10)) s
      exact ⟨hp, hs, hn, hc, hprov, hwal⟩

end Quiet

/-! ## Storing and forgetting -/

variable [F32 F]

/-- The store with a new memory, before it is linked. -/
def kept (cfg : WriteConfig F) (s : LiveStore F) (call : PutCall F) (env : PutEnv F) : LiveStore F :=
  let op := putOp cfg s.nextId call env
  let payload := newPayload op call.embedPending
  { s.logSide (if call.artifactRefs.isEmpty then env.derived else []) with
    nextId := s.nextId + 1
    ctx := stored s.ctx s.nextId payload (newState cfg
      (Function.update s.ctx.payloads s.nextId (some payload)) s.nextId call env)
    chunkHashIdx := Maps.orInsert s.chunkHashIdx op.chunkHash s.nextId
    contentProvIdx := match call.provKey cfg with
      | some key => Maps.orInsert s.contentProvIdx key s.nextId
      | none => s.contentProvIdx
    wal := (s.logSide (if call.artifactRefs.isEmpty then env.derived else [])).wal ++
      [.putPayload op] }

variable {s : LiveStore F}

/-- What a call does that stores a memory. -/
lemma putMemory_stores {cfg : WriteConfig F} {call : PutCall F} {env : PutEnv F}
    (h : s.Stores cfg call env) : (s.kept cfg call env).Quiet (s.putMemory cfg call env).1 ∧
      (s.putMemory cfg call env).2 = .ok (s.nextId, call.chunkHash cfg) := by
  obtain ⟨hdim, hnew, happend⟩ := h
  have hguard : (!call.embedding.isEmpty && decide (call.embedding.length ≠ cfg.embedDim)) = false := by
    rcases hdim with hdim | hdim <;> simp [hdim]
  unfold putMemory
  rw [hguard, hnew]
  simp only [Bool.false_eq_true, if_false, putNew, happend]
  exact ⟨(Quiet.logSide (s.kept cfg call env) env.encoded).trans (Quiet.densifyWriteEdges ..), rfl⟩

/-- What a call does that stores nothing. -/
lemma putMemory_idle {cfg : WriteConfig F} {call : PutCall F} {env : PutEnv F}
    (h : ¬s.Stores cfg call env) :
    ∃ n, s.nextId ≤ n ∧ Quiet { s with nextId := n } (s.putMemory cfg call env).1 := by
  unfold putMemory
  split
  · exact ⟨s.nextId, le_rfl, Quiet.refl s⟩
  · rename_i hguard
    cases hdup : s.duplicateOf cfg call env.nearest with
    | some found =>
      obtain ⟨id, boost⟩ := found
      refine ⟨s.nextId, le_rfl, ?_⟩
      have hupdate := Quiet.updateState s id (some (F32.lit 0)) (some boost) none true none env.ts
        env.append
      cases hrep : env.replication with
      | error e => simpa only [hrep] using hupdate
      | ok sessions => simpa only [hrep] using hupdate.trans (Quiet.logSide _ sessions)
    | none =>
      refine ⟨s.nextId + 1, Nat.le_succ _, ?_⟩
      simp only [putNew]
      cases happend : env.append with
      | error e =>
        exact Quiet.logSide { s with nextId := s.nextId + 1 } _
      | ok =>
        refine absurd ⟨?_, hdup, happend⟩ h
        simpa [Bool.and_eq_true, not_and_or, or_iff_not_imp_left] using hguard

omit [F32 F] in
/-- A call that forgets a memory does nothing, or only logs it, or does it. -/
lemma forget_cases (s : LiveStore F) (id : MemoryId) (env : ForgetEnv F) :
    (s.forget id env).1 = s ∨
      (env.append = .ok () ∧ (s.forget id env).1 =
        { s with wal := s.wal ++ [.deleteMemory ⟨id, env.ts⟩] }) ∨
      (s.Knows id ∧ env.append = .ok () ∧ env.sync = .ok () ∧
        Quiet { s with
          ctx := forgotten s.ctx id
          wal := s.wal ++ [.deleteMemory ⟨id, env.ts⟩] } (s.forget id env).1) := by
  unfold forget
  cases hstate : s.ctx.states id with
  | none => exact Or.inl rfl
  | some state =>
    dsimp only
    cases env.append with
    | error e => exact Or.inl rfl
    | ok =>
      cases env.sync with
      | error e => exact Or.inr (Or.inl ⟨rfl, rfl⟩)
      | ok => exact Or.inr (Or.inr ⟨by simp [Knows, hstate], rfl, rfl, Quiet.logSide _ _⟩)

omit [F32 F] in
/-- A memory that is forgotten is deleted, and no other. -/
lemma status_forgotten (ctx : ApplyCtx F) (id : MemoryId) :
    (forgotten ctx id).status = Maps.modifyAt ctx.status id fun _ => true :=
  Maps.map_modifyAt fun _ => rfl

lemma status_kept (cfg : WriteConfig F) (s : LiveStore F) (call : PutCall F) (env : PutEnv F) :
    (s.kept cfg call env).ctx.status = Function.update s.ctx.status s.nextId (some false) :=
  Maps.map_update MemoryState.deleted _

lemma flags_kept (cfg : WriteConfig F) (s : LiveStore F) (call : PutCall F) (env : PutEnv F) :
    (s.kept cfg call env).ctx.flags =
      Function.update s.ctx.flags s.nextId (some (false, call.embedPending)) :=
  Maps.map_update MemoryState.flags _

/-- The ids that are to come have no payload. -/
def Fresh (s : LiveStore F) : Prop := ∀ id, s.nextId ≤ id → s.ctx.payloads id = none

/-- The next id stays fresh. -/
lemma Fresh.putMemory (h : s.Fresh) (cfg : WriteConfig F) (call : PutCall F) (env : PutEnv F) :
    (s.putMemory cfg call env).1.Fresh := by
  intro id hid
  by_cases hstores : s.Stores cfg call env
  · have hquiet := (putMemory_stores hstores).1
    have hnext : (s.putMemory cfg call env).1.nextId = s.nextId + 1 := hquiet.nextId
    have hlt : s.nextId < id := hnext.symm.trans_le hid
    exact (congrFun hquiet.payloads id).trans
      ((Function.update_of_ne hlt.ne' ..).trans (h id hlt.le))
  · obtain ⟨n, hn, hquiet⟩ := putMemory_idle hstores
    have hnext : (s.putMemory cfg call env).1.nextId = n := hquiet.nextId
    exact (congrFun hquiet.payloads id).trans (h id (hn.trans (hnext.symm.trans_le hid)))

omit [F32 F] in
lemma Fresh.forget (h : s.Fresh) (id : MemoryId) (env : ForgetEnv F) : (s.forget id env).1.Fresh := by
  rcases s.forget_cases id env with heq | ⟨-, heq⟩ | ⟨-, -, -, hquiet⟩
  · rw [heq]
    exact h
  · rw [heq]
    exact h
  · intro id' hid
    have hnext : (s.forget id env).1.nextId = s.nextId := hquiet.nextId
    exact (congrFun hquiet.payloads id').trans
      (Maps.modifyAt_eq_none.mpr (h id' (hnext.symm.trans_le hid)))

end LiveStore

end ChittaField
