import ChittaField.Store.Agreement
import ChittaField.Store.Histories

/-!
# Convergence

A running field applies its own operations when they are called, and those of a peer when foreign
sync brings them.  A field that opens later applies the same operations in merge order.  The two end
with the same memories if they apply what is written to each field of a memory in the same order, and
if the own calls use nothing that their operations leave out (`sync_converges`).
-/

namespace ChittaField

variable {F : Type}

/-! ## A field with a peer -/

/-- A running field, and all operations in the order in which it has applied them. -/
structure Replica (F : Type) where
  store : LiveStore F
  arrived : List (Op F)

/-- What happens to a running field. -/
inductive ReplicaEvent (F : Type) where
  /-- An own call of a write operation. -/
  | call (call : LiveStore.WriteCall F)
  /-- An own call that replaces a content, at a time. -/
  | content (memoryId : MemoryId) (content : Bytes) (embedding : List F) (ts : ℤ)
    (append : Except FieldError Unit)
  /-- An own call that replaces a kind, at a time. -/
  | kind (memoryId : MemoryId) (newKind : String) (ts : ℤ) (append : Except FieldError Unit)
  /-- Foreign sync applies the next operation of the peer. -/
  | ingest (op : Op F)

namespace LiveStore

/-- Replace the content of a memory.  The embedding goes to the semantic index. -/
def updateMemoryContent (cfg : WriteConfig F) (s : LiveStore F) (memoryId : MemoryId)
    (content : Bytes) (embedding : List F) (ts : ℤ) (append : Except FieldError Unit) :
    LiveStore F :=
  if !embedding.isEmpty && embedding.length ≠ cfg.embedDim then s
  else if (s.ctx.payloads memoryId).isNone then s
  else
    match append with
    | .error _ => s
    | .ok () =>
      { s with
        ctx := s.ctx.modifyPayload memoryId fun p =>
          { p with
            content := content
            embedding := if embedding.isEmpty then p.embedding else [] }
        wal := s.wal ++ [.updateMemoryContent ⟨memoryId, content, embedding, ts⟩] }

/-- Replace the kind of a memory.  It is logged even if there is no such memory. -/
def updateMemoryKind (s : LiveStore F) (memoryId : MemoryId) (newKind : String) (ts : ℤ)
    (append : Except FieldError Unit) : LiveStore F :=
  match append with
  | .error _ => s
  | .ok () =>
    { s with
      ctx := s.ctx.modifyPayload memoryId ({ · with kind := newKind })
      wal := s.wal ++ [.updateMemoryKind ⟨memoryId, newKind, ts⟩] }

/-- Apply an operation of the peer. -/
def ingest [F32 F] (s : LiveStore F) (op : Op F) : LiveStore F :=
  { s with
    ctx := applyOp op s.ctx
    chunkHashIdx := match op with
      | .putPayload put => Maps.orInsert s.chunkHashIdx put.chunkHash put.memoryId
      | _ => s.chunkHashIdx }

end LiveStore

namespace Replica

variable [F32 F]

/-- A field that is opened without anything. -/
def empty (firstId : MemoryId) : Replica F := ⟨.empty firstId, []⟩

/-- An own call, and what it has logged. -/
def own (r : Replica F) (store : LiveStore F) : Replica F :=
  ⟨store, r.arrived ++ store.wal.drop r.store.wal.length⟩

/-- An event. -/
def step (cfg : WriteConfig F) (r : Replica F) : ReplicaEvent F → Replica F
  | .call call => r.own (r.store.step cfg call)
  | .content memoryId content embedding ts append =>
    r.own (r.store.updateMemoryContent cfg memoryId content embedding ts append)
  | .kind memoryId newKind ts append => r.own (r.store.updateMemoryKind memoryId newKind ts append)
  | .ingest op => ⟨r.store.ingest op, r.arrived ++ [op]⟩

/-- Events one after the other. -/
def run (cfg : WriteConfig F) (r : Replica F) (events : List (ReplicaEvent F)) : Replica F :=
  events.foldl (step cfg) r

/-- The log of the peer: what foreign sync has brought of it. -/
def peerLog (events : List (ReplicaEvent F)) : List (Op F) :=
  events.filterMap fun
    | .ingest op => some op
    | _ => none

/-- The records of a log. -/
def numbered (inst : InstanceId) (ops : List (Op F)) : List (InstanceId × ℕ × Op F) :=
  (ops.zipIdx 1).map fun o => (inst, o.2, o.1)

/-- The records of the two logs in the order of the directory. -/
def segments (inst peer : InstanceId) (own foreign : List (Op F)) :
    List (InstanceId × ℕ × Op F) :=
  if inst < peer then numbered inst own ++ numbered peer foreign
  else numbered peer foreign ++ numbered inst own

end Replica

/-! ## What a call leaves to its log -/

/-- The memories are the same. -/
structure SameMemories (ctx ctx' : ApplyCtx F) : Prop where
  payloads : ctx.payloads = ctx'.payloads
  states : ctx.states = ctx'.states

namespace SameMemories

lemma refl (ctx : ApplyCtx F) : SameMemories ctx ctx := ⟨rfl, rfl⟩

lemma trans {ctx ctx' ctx'' : ApplyCtx F} (h : SameMemories ctx ctx')
    (h' : SameMemories ctx' ctx'') : SameMemories ctx ctx'' :=
  ⟨h.payloads.trans h'.payloads, h.states.trans h'.states⟩

variable [F32 F]

/-- An operation does the same to the same memories. -/
lemma applyOp {ctx ctx' : ApplyCtx F} (h : SameMemories ctx ctx') (op : Op F) :
    SameMemories (applyOp op ctx) (applyOp op ctx') where
  payloads := funext fun m => by rw [payloads_applyOp, payloads_applyOp, h.payloads]
  states := funext fun m => by rw [states_applyOp, states_applyOp, h.states]

lemma applyAll {ctx ctx' : ApplyCtx F} (h : SameMemories ctx ctx') (ops : List (Op F)) :
    SameMemories (applyAll ctx ops) (applyAll ctx' ops) := by
  induction ops generalizing ctx ctx' with
  | nil => exact h
  | cons op ops ih => exact ih (h.applyOp op)

end SameMemories

lemma isMemoryOp_of_side {op : Op F} (h : isSideOp op = true) : isMemoryOp op = true := by
  cases op with
  | upsertArtifact | addTriplet | invalidateTriplet | supersedeTriplet | updateSparseCode => rfl
  | _ => cases h

variable {cfg : WriteConfig F}

namespace LiveStore

variable [F32 F]

/-- A call has done to the memories what it has logged. -/
def Tracks (s s' : LiveStore F) : Prop :=
  ∃ ops, s'.wal = s.wal ++ ops ∧ (∀ op ∈ ops, isMemoryOp op = true) ∧
    SameMemories s'.ctx (applyAll s.ctx ops)

lemma Tracks.refl (s : LiveStore F) : s.Tracks s :=
  ⟨[], (List.append_nil _).symm, List.forall_mem_nil _, .refl _⟩

lemma Tracks.trans {s s' s'' : LiveStore F} (h : s.Tracks s') (h' : s'.Tracks s'') :
    s.Tracks s'' := by
  obtain ⟨ops, hwal, hops, hsame⟩ := h
  obtain ⟨ops', hwal', hops', hsame'⟩ := h'
  refine ⟨ops ++ ops', by rw [hwal', hwal, List.append_assoc], fun op hop => ?_, ?_⟩
  · exact (List.mem_append.mp hop).elim (hops op) (hops' op)
  · rw [applyAll_append]
    exact hsame'.trans (hsame.applyAll ops')

/-- A call that logs one operation. -/
lemma Tracks.log {s s' : LiveStore F} {op : Op F} (hwal : s'.wal = s.wal ++ [op])
    (hop : isMemoryOp op = true) (hsame : SameMemories s'.ctx (applyOp op s.ctx)) : s.Tracks s' :=
  ⟨[op], hwal, fun _ h => List.mem_singleton.mp h ▸ hop, hsame⟩

lemma tracks_logSide (s : LiveStore F) (ops : List (SideOp F)) : s.Tracks (s.logSide ops) := by
  have hall : ∀ ctx : ApplyCtx F, SameMemories ctx (applyAll ctx (ops.map Subtype.val)) := by
    intro ctx
    induction ops generalizing ctx with
    | nil => exact .refl ctx
    | cons op ops ih =>
      have hone : SameMemories ctx (applyOp op.1 ctx) := by
        obtain ⟨op, hop⟩ := op
        cases op with
        | upsertArtifact | addTriplet | invalidateTriplet | supersedeTriplet | updateSparseCode =>
          exact .refl ctx
        | _ => cases hop
      exact hone.trans (ih _)
  refine ⟨ops.map Subtype.val, rfl, fun op hop => ?_, hall s.ctx⟩
  obtain ⟨op, -, rfl⟩ := List.mem_map.mp hop
  exact isMemoryOp_of_side op.2

lemma tracks_updateState (s : LiveStore F) (id : MemoryId)
    (strengthDelta confidenceDelta decayRate : Option F) (touch : Bool) (pin : Option Bool) {ts : ℤ}
    (append : Except FieldError Unit) (hts : 0 < ts) :
    s.Tracks (s.updateState id strengthDelta confidenceDelta decayRate touch pin ts append).1 := by
  unfold LiveStore.updateState
  cases hstate : s.ctx.states id with
  | none => exact .refl s
  | some state =>
    dsimp only
    split
    · exact .refl s
    · cases append with
      | error e => exact .refl s
      | ok =>
        refine .log rfl rfl ⟨rfl, ?_⟩
        simp [applyOp, ApplyCtx.modifyState, MemoryState.replayNow, hts]

variable {s : LiveStore F}

lemma tracks_forget {id : MemoryId} {env : ForgetEnv F}
    (hsync : s.Knows id → env.append = .ok () → env.sync = .ok ()) :
    s.Tracks (s.forget id env).1 := by
  unfold LiveStore.forget
  cases hstate : s.ctx.states id with
  | none => exact .refl s
  | some state =>
    dsimp only
    cases happend : env.append with
    | error e => exact .refl s
    | ok =>
      rw [hsync (by simp [Knows, hstate]) happend]
      have hlog : s.Tracks { s with
          ctx := forgotten s.ctx id, wal := s.wal ++ [.deleteMemory ⟨id, env.ts⟩] } :=
        .log rfl rfl (.refl _)
      exact hlog.trans (tracks_logSide _ _)

lemma tracks_addAssocEdge (s : LiveStore F) (src dst : MemoryId) (edgeType : EdgeType) (weight : F)
    (env : EdgeEnv F) : s.Tracks (s.addAssocEdge src dst edgeType weight env).1 := by
  rcases s.addAssocEdge_cases src dst edgeType weight env with ⟨ops, heq⟩ | ⟨-, heq⟩
  · exact heq ▸ tracks_logSide s ops
  · exact heq ▸ .log rfl rfl ⟨rfl, rfl⟩

lemma tracks_densifyLoop (newId : MemoryId) (env : MemoryId × MemoryId → EdgeEnv F)
    (prevs : List MemoryId) (weight : F) (s : LiveStore F) :
    s.Tracks (densifyLoop newId env prevs weight s) := by
  induction prevs generalizing weight s with
  | nil => exact .refl s
  | cons prev rest ih =>
    exact ((tracks_addAssocEdge ..).trans (tracks_addAssocEdge ..)).trans (ih _ _)

lemma tracks_densifyWriteEdges (cfg : WriteConfig F) (s : LiveStore F) (newId : MemoryId)
    (realm : String) (session : Option String) (env : MemoryId × MemoryId → EdgeEnv F) :
    s.Tracks (s.densifyWriteEdges cfg newId realm session env) := by
  unfold densifyWriteEdges
  cases session with
  | none => exact .refl s
  | some =>
    dsimp only
    split
    · exact .refl s
    · exact tracks_densifyLoop newId env _ _ s

/-- A new memory is as replay makes it: its id is new, and nothing that is not logged is known of
it. -/
structure AsLogged (cfg : WriteConfig F) (s : LiveStore F) (call : PutCall F) (env : PutEnv F) :
    Prop where
  fresh : ¬ s.Knows s.nextId
  confidence : call.confidence = F32.lit 1
  decayRate : burnIn env.combinedSurprisal call.decayRate = F32.lit (1 / 1000)
  embedded : call.embedPending = false
  surprise : env.surprise.getD (F32.lit 0) = F32.lit 0
  crowding : ∀ crowding, interference cfg
    (Function.update s.ctx.payloads s.nextId (some (newPayload (putOp cfg s.nextId call env)
      call.embedPending))) s.nextId call.kind env.neighbors = some crowding →
    crowding = (F32.lit 0, F32.lit 0)

lemma AsLogged.newState_eq {call : PutCall F} {env : PutEnv F} (h : AsLogged cfg s call env) :
    newState cfg (Function.update s.ctx.payloads s.nextId (some (newPayload
      (putOp cfg s.nextId call env) call.embedPending))) s.nextId call env =
      MemoryState.new s.nextId (call.chunkHash cfg) env.ts := by
  have hcrowding := h.crowding
  simp only [newState, h.embedded, Bool.false_eq_true, if_false, h.confidence, h.decayRate,
    h.surprise] at hcrowding ⊢
  cases hi : interference cfg (Function.update s.ctx.payloads s.nextId (some (newPayload
      (putOp cfg s.nextId call env) false))) s.nextId call.kind env.neighbors with
  | none => rfl
  | some crowding =>
    rw [hcrowding crowding hi]
    rfl

/-- A new memory is the one that its operations make. -/
lemma tracks_putNew {call : PutCall F} {env : PutEnv F}
    (h : env.append = .ok () → AsLogged cfg s call env) : s.Tracks (s.putNew cfg call env).1 := by
  unfold LiveStore.putNew
  dsimp only
  generalize (if call.artifactRefs.isEmpty then env.derived else []) = derived
  have hside : s.Tracks { s.logSide derived with nextId := s.nextId + 1 } := tracks_logSide s derived
  cases happend : env.append with
  | error e => exact hside
  | ok =>
    have hlogged := h happend
    have hnone : s.ctx.states s.nextId = none := by simpa [Knows] using hlogged.fresh
    have hnew := hlogged.newState_eq
    refine hside.trans (Tracks.trans ?_ (tracks_densifyWriteEdges ..))
    refine Tracks.trans (Tracks.log rfl rfl ⟨?_, ?_⟩) (tracks_logSide _ _)
    · simp [LiveStore.stored, applyOp, newPayload, hlogged.embedded, LiveStore.logSide, putOp]
    · simp only [LiveStore.stored, applyOp, LiveStore.logSide, hnew]
      simp only [putOp, hnone, Option.getD_none]
      rfl

lemma tracks_putMemory {call : PutCall F} {env : PutEnv F}
    (hdup : s.duplicateOf cfg call env.nearest ≠ none → 0 < env.ts)
    (h : s.Stores cfg call env → AsLogged cfg s call env) :
    s.Tracks (s.putMemory cfg call env).1 := by
  unfold LiveStore.putMemory
  split
  · exact .refl s
  rename_i hdim
  cases hdup' : s.duplicateOf cfg call env.nearest with
  | some target =>
    dsimp only
    have hupdated := tracks_updateState s target.1 (some (F32.lit 0)) (some target.2) none true none
      env.append (hdup (by rw [hdup']; exact Option.some_ne_none target))
    cases env.replication with
    | error e => exact hupdated
    | ok sessions => exact hupdated.trans (tracks_logSide _ sessions)
  | none =>
    refine tracks_putNew fun happend => h ⟨?_, hdup', happend⟩
    by_cases hempty : call.embedding = []
    · exact Or.inl hempty
    · exact Or.inr (by simpa [hempty] using hdim)

end LiveStore

namespace Replica

variable [F32 F]

/-- An own call uses nothing that its operations leave out. -/
def Logs (cfg : WriteConfig F) (r : Replica F) : ReplicaEvent F → Prop
  | .call (.putMemory call env) =>
    (r.store.duplicateOf cfg call env.nearest ≠ none → 0 < env.ts) ∧
      (r.store.Stores cfg call env → LiveStore.AsLogged cfg r.store call env)
  | .call (.updateState _ _ _ _ _ _ ts _) => 0 < ts
  | .call (.forget id env) => r.store.Knows id → env.append = .ok () → env.sync = .ok ()
  | _ => True

/-- Every own call uses nothing that its operations leave out. -/
def LogsAll (cfg : WriteConfig F) (r : Replica F) : List (ReplicaEvent F) → Prop
  | [] => True
  | e :: events => r.Logs cfg e ∧ LogsAll cfg (r.step cfg e) events

/-- The memories are what the operations have made of them in the order of their arrival. -/
structure Fits (r : Replica F) : Prop where
  ops : ∀ op ∈ r.arrived, isMemoryOp op = true
  logged : ∀ op ∈ r.store.wal, isMemoryOp op = true
  same : SameMemories r.store.ctx (applyAll .empty r.arrived)

/-- Nothing has arrived at the start. -/
lemma empty_fits (firstId : MemoryId) : (empty firstId : Replica F).Fits where
  ops _ hop := absurd hop List.not_mem_nil
  logged _ hop := absurd hop List.not_mem_nil
  same := .refl _

variable {r : Replica F}

/-- An own call that has done what it has logged. -/
lemma Fits.own (h : r.Fits) {store : LiveStore F} (ht : r.store.Tracks store) :
    (r.own store).Fits := by
  obtain ⟨ops, hwal, hops, hsame⟩ := ht
  have hdrop : store.wal.drop r.store.wal.length = ops := by rw [hwal, List.drop_left]
  constructor
  · intro op hop
    rw [Replica.own, hdrop] at hop
    exact (List.mem_append.mp hop).elim (h.ops op) (hops op)
  · intro op hop
    rw [Replica.own, hwal] at hop
    exact (List.mem_append.mp hop).elim (h.logged op) (hops op)
  · rw [Replica.own, hdrop, applyAll_append]
    exact hsame.trans (h.same.applyAll _)

/-- No memory waits for its embedding. -/
lemma Fits.settled (h : r.Fits) {m : MemoryId} {s : MemoryState F}
    (hs : r.store.ctx.states m = some s) : s.embedPending = false := by
  have ht := (History.empty_tells m).foldl h.ops
  rw [h.same.states, ht.state, History.state] at hs
  obtain ⟨s', hs', hs⟩ := Option.bind_eq_some_iff.mp hs
  obtain ⟨deleted, -, rfl⟩ := Option.map_eq_some_iff.mp hs
  exact ht.settled s' hs'

lemma Fits.content (h : r.Fits) (cfg : WriteConfig F) (m : MemoryId) (content : Bytes)
    (embedding : List F) (ts : ℤ) (append : Except FieldError Unit) :
    r.store.Tracks (r.store.updateMemoryContent cfg m content embedding ts append) := by
  unfold LiveStore.updateMemoryContent
  split
  · exact .refl _
  split
  · exact .refl _
  cases append with
  | error e => exact .refl _
  | ok =>
    refine .log rfl rfl ?_
    rw [applyOp]
    cases hempty : embedding.isEmpty with
    | true => exact .refl _
    | false =>
      refine ⟨rfl, funext fun id => ?_⟩
      by_cases hid : id = m
      · subst hid
        refine Eq.trans ?_ Maps.modifyAt_self.symm
        cases hs : r.store.ctx.states id with
        | none => simp [ApplyCtx.modifyPayload, hs]
        | some s =>
          have hpending := h.settled hs
          simp only [ApplyCtx.modifyPayload, hs, Option.map_some, Option.some.injEq]
          rw [MemoryState.mk.injEq]
          simp [hpending]
      · exact (Maps.modifyAt_of_ne hid).symm

/-- Every event keeps the memories what the operations make. -/
lemma Fits.step (h : r.Fits) {e : ReplicaEvent F} (hlogs : r.Logs cfg e)
    (hpeer : ∀ op, e = .ingest op → isMemoryOp op = true) : (r.step cfg e).Fits := by
  cases e with
  | call call =>
    refine h.own ?_
    cases call with
    | putMemory => exact LiveStore.tracks_putMemory hlogs.1 hlogs.2
    | updateState => exact LiveStore.tracks_updateState _ _ _ _ _ _ _ _ hlogs
    | forget => exact LiveStore.tracks_forget hlogs
    | addAssocEdge => exact LiveStore.tracks_addAssocEdge ..
  | content m content => exact h.own (h.content cfg ..)
  | kind m newKind ts append =>
    refine h.own ?_
    unfold LiveStore.updateMemoryKind
    cases append with
    | error e => exact .refl _
    | ok => exact .log rfl rfl (.refl _)
  | ingest op =>
    have hop := hpeer op rfl
    refine ⟨List.forall_mem_append.mpr ⟨h.ops, List.forall_mem_singleton.mpr hop⟩, h.logged, ?_⟩
    · exact (h.same.applyOp _).trans (by rw [Replica.step, applyAll_append]; exact .refl _)

/-- And so does every run. -/
lemma Fits.run (h : r.Fits) {events : List (ReplicaEvent F)} (hlogs : r.LogsAll cfg events)
    (hpeer : ∀ op ∈ peerLog events, isMemoryOp op = true) : (r.run cfg events).Fits := by
  induction events generalizing r with
  | nil => exact h
  | cons e events ih =>
    refine ih (h.step hlogs.1 fun op hop => hpeer op ?_) hlogs.2 fun op hop => hpeer op ?_
    · simp [peerLog, hop]
    · simp only [peerLog, List.filterMap_cons]
      split
      · exact hop
      · exact List.mem_cons_of_mem _ hop

/-! ## The field that opens later -/

/-- The operations of the two logs in the order in which a later opening applies them. -/
def replayed (inst peer : InstanceId) (own foreign : List (Op F)) : List (Op F) :=
  applyOrder (fun _ => false) (noSnapshots.passed (mergeOrder (segments inst peer own foreign)))

/-- The maps of a later opening. -/
def reopened (inst peer : InstanceId) (own foreign : List (Op F)) : ApplyCtx F :=
  replayWal noSnapshots .empty (mergeOrder (segments inst peer own foreign))

omit [F32 F] in
lemma mem_numbered {inst : InstanceId} {ops : List (Op F)} {o : InstanceId × ℕ × Op F}
    (h : o ∈ numbered inst ops) : o.2.2 ∈ ops := by
  obtain ⟨a, ha, rfl⟩ := List.mem_map.mp h
  exact List.fst_mem_of_mem_zipIdx ha

omit [F32 F] in
/-- A later opening applies operations of the two logs. -/
lemma isMemoryOp_replayed (inst peer : InstanceId) {own foreign : List (Op F)}
    (hown : ∀ op ∈ own, isMemoryOp op = true) (hforeign : ∀ op ∈ foreign, isMemoryOp op = true) :
    ∀ op ∈ replayed inst peer own foreign, isMemoryOp op = true := by
  intro op hop
  obtain ⟨op', hop', hone⟩ := List.mem_flatMap.mp ((applyOrder_perm _ _).mem_iff.mp hop)
  obtain ⟨o, ho, rfl⟩ := List.mem_map.mp hop'
  have hmem : o ∈ segments inst peer own foreign :=
    (mergeOrder_perm _).mem_iff.mp (List.mem_filter.mp ho).1
  have hmem' : o.2.2 ∈ own ∨ o.2.2 ∈ foreign := by
    unfold segments at hmem
    split at hmem
    · exact (List.mem_append.mp hmem).imp mem_numbered mem_numbered
    · exact (List.mem_append.mp hmem).symm.imp mem_numbered mem_numbered
  have hmemory : isMemoryOp o.2.2 = true := hmem'.elim (hown _) (hforeign _)
  have hsame : unbatched o.2.2 = [o.2.2] := by
    cases hop'' : o.2.2 with
    | updateStateBatch deltas => rw [hop''] at hmemory; cases hmemory
    | _ => rfl
  rw [hsame, List.mem_singleton] at hone
  exact hone ▸ hmemory

end Replica

/-- A field that has applied its own operations and those of a peer as they came has the memories
of a field that replays the two logs, if the own calls use nothing that they do not log and each
field of each memory is written in the same order. -/
theorem sync_converges [F32 F] (cfg : WriteConfig F) (firstId : MemoryId) (inst peer : InstanceId)
    {events : List (ReplicaEvent F)}
    (hpeer : ∀ op ∈ Replica.peerLog events, isMemoryOp op = true)
    (hlogs : (Replica.empty firstId).LogsAll cfg events)
    (horder : ∀ m, History.of m ((Replica.empty firstId).run cfg events).arrived =
      History.of m (Replica.replayed inst peer ((Replica.empty firstId).run cfg events).store.wal
        (Replica.peerLog events))) :
    SameMemories ((Replica.empty firstId).run cfg events).store.ctx
      (Replica.reopened inst peer ((Replica.empty firstId).run cfg events).store.wal
        (Replica.peerLog events)) := by
  have hfits := (Replica.empty_fits firstId).run hlogs hpeer
  have hops := Replica.isMemoryOp_replayed inst peer hfits.logged hpeer
  refine hfits.same.trans ?_
  rw [Replica.reopened, replayWal_eq]
  exact ⟨funext fun m => (applyAll_histories hfits.ops hops (horder m)).1,
    funext fun m => (applyAll_histories hfits.ops hops (horder m)).2⟩

/-! ## Two edits of one memory -/

/-- An own edit of memory 1 at time 20, and then a peer's edit that is older. -/
def sampleEdits : List (ReplicaEvent ℚ) :=
  [.call (samplePut [1] 1 5), .content 1 [2] [] 20 (.ok ()),
    .ingest (.updateMemoryContent ⟨1, [3], [], 10⟩)]

/-- The running field ends with the older edit, and a field that opens later with the newer one. -/
theorem older_edit_wins :
    let r := (Replica.empty 1).run sampleConfig sampleEdits
    ¬ SameMemories r.store.ctx
      (Replica.reopened 1 2 r.store.wal (Replica.peerLog sampleEdits)) ∧
    (r.store.ctx.payloads 1).map (·.content) = some [3] ∧
      ((Replica.reopened 1 2 r.store.wal (Replica.peerLog sampleEdits)).payloads 1).map
        (·.content) = some [2] := by
  intro r
  have hlive : (r.store.ctx.payloads 1).map (·.content) = some [3] := by decide +kernel
  have hlater : ((Replica.reopened 1 2 r.store.wal (Replica.peerLog sampleEdits)).payloads 1).map
      (·.content) = some [2] := by decide +kernel
  refine ⟨fun h => ?_, hlive, hlater⟩
  rw [h.payloads, hlater] at hlive
  cases hlive

/-- An edit of the peer, an own edit that is newer, and a deletion by the peer. -/
def orderedEdits : List (ReplicaEvent ℚ) :=
  [.call (samplePut [1] 1 5), .ingest (.updateMemoryContent ⟨1, [3], [], 10⟩),
    .content 1 [2] [] 20 (.ok ()), .ingest (.deleteMemory ⟨1, 30⟩)]

/-- Both fields end with the deletion. -/
theorem sync_converges_ordered :
    let r := (Replica.empty 1).run sampleConfig orderedEdits
    SameMemories r.store.ctx
      (Replica.reopened 1 2 r.store.wal (Replica.peerLog orderedEdits)) := by
  have hput : LiveStore.AsLogged sampleConfig (LiveStore.empty 1)
      ⟨"insight", "work", [1], [], (1 : ℚ), 1 / 1000, 0, [], some "session", none⟩
      ⟨5, none, [], none, none, [], [], .ok (), [], .ok [], fun _ => ⟨[], .ok ()⟩⟩ := by
    refine ⟨?_, rfl, rfl, rfl, rfl, fun _ h => ?_⟩
    · simp [LiveStore.Knows, LiveStore.empty, ApplyCtx.empty]
    · simp [LiveStore.interference] at h
  have horder : ((Replica.empty 1).run sampleConfig orderedEdits).arrived =
      Replica.replayed 1 2 ((Replica.empty 1).run sampleConfig orderedEdits).store.wal
        (Replica.peerLog orderedEdits) := by rfl
  refine sync_converges sampleConfig 1 1 2 (fun op hop => ?_)
    ⟨⟨fun _ => by decide, fun _ => hput⟩, trivial, trivial, trivial, trivial⟩
    fun m => congrArg (History.of m) horder
  rcases List.mem_pair.mp hop with rfl | rfl <;> rfl

end ChittaField
