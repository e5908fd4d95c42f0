import ChittaField.Store.Live

/-!
# The live maps and the log

Both the live store and the replay of its log refine one abstract store, `StoreView`: of each memory
the part of its state that updates change, and the edges.  An operation of the log acts on it by
`StoreView.apply`.

`applyOp` always acts as its operation says (`view_applyOp`).  The live operations do so under a
condition, `Logs`, because they use more than they log: the confidence and the decay rate of a new
memory are not in its operation, the surprise that burns it in is not, an edge that is there already
is merged live and added again by replay, and a deletion is in the log before it is synced and done.
-/

namespace ChittaField

variable {F : Type}

/-! ## What an operation says -/

/-- The part of a memory's state that updates change. -/
structure StateView (F : Type) where
  strength : F
  confidence : F
  decayRate : F
  deleted : Bool
  pinned : Bool
  status : MemoryStatus
  staged : Bool
  accessCount : ℕ
  lastStateOpTsMs : ℤ
  deriving DecidableEq

def MemoryState.view (s : MemoryState F) : StateView F :=
  ⟨s.strength, s.confidence, s.decayRate, s.deleted, s.pinned, s.status, s.staged, s.accessCount,
    s.lastStateOpTsMs⟩

namespace StateView

variable [F32 F]

/-- A new memory. -/
def new : StateView F := ⟨F32.lit 1, F32.lit 1, F32.lit (1 / 1000), false, false, .active, true, 0, 0⟩

/-- An explicit update, unless the fence drops it. -/
def applyDelta (v : StateView F) (delta : StateDeltaOp F) : StateView F :=
  if 0 < delta.opTsMs ∧ delta.opTsMs ≤ v.lastStateOpTsMs then v
  else
    { v with
      lastStateOpTsMs := if 0 < delta.opTsMs then delta.opTsMs else v.lastStateOpTsMs
      strength := delta.strengthDelta.elim v.strength fun d =>
        F32.clamp (F32.add v.strength d) (F32.lit 0) (F32.lit 1)
      confidence := delta.confidenceDelta.elim v.confidence fun d =>
        F32.clamp (F32.add v.confidence d) (F32.lit 0) (F32.lit 1)
      decayRate := delta.decayRate.elim v.decayRate fun r => F32.max r (F32.lit 0)
      accessCount := if delta.touch then (v.accessCount + 1) % 2 ^ 32 else v.accessCount
      pinned := delta.pin.getD v.pinned
      status := delta.status.elim v.status MemoryStatus.ofCode
      staged := delta.staged.getD v.staged }

/-- An update does the same to the view whenever it is applied. -/
lemma view_applyDelta (s : MemoryState F) (delta : StateDeltaOp F) (nowMs : ℤ) :
    (s.applyDelta delta nowMs).view = s.view.applyDelta delta := by
  unfold MemoryState.applyDelta applyDelta
  rw [apply_ite MemoryState.view]
  rfl

end StateView

/-- The memories and edges. -/
structure StoreView (F : Type) where
  states : MemoryId → Option (StateView F)
  assocEdges : AssocEdges F

def ApplyCtx.view (ctx : ApplyCtx F) : StoreView F :=
  ⟨fun id => (ctx.states id).map MemoryState.view, ctx.assocEdges⟩

namespace StoreView

variable [F32 F]

/-- No memories. -/
def empty : StoreView F := ⟨fun _ => none, fun _ => none⟩

/-- What an operation says. -/
def apply (v : StoreView F) : Op F → StoreView F
  | .putPayload put =>
    { v with
      states := Function.update v.states put.memoryId
        (some ((v.states put.memoryId).getD .new)) }
  | .updateState d => { v with states := Maps.modifyAt v.states d.memoryId (·.applyDelta d) }
  | .deleteMemory d =>
    { v with
      states := Maps.modifyAt v.states d.memoryId ({ · with deleted := true })
      assocEdges := removeEdges v.assocEdges d.memoryId }
  | .addAssocEdge e =>
    { v with
      assocEdges := Function.update v.assocEdges e.src
        (some ((v.assocEdges e.src).getD [] ++ [⟨e.dst, e.edgeType, e.weight⟩])) }
  | _ => v

end StoreView

/-- The operations that the write operations log. -/
def isWriteOp : Op F → Bool
  | .putPayload _ => true
  | .updateState _ => true
  | .deleteMemory _ => true
  | .addAssocEdge _ => true
  | op => isSideOp op

/-- Operations for organs say nothing about the memories. -/
lemma StoreView.apply_side [F32 F] (v : StoreView F) {op : Op F} (h : isSideOp op = true) :
    v.apply op = v := by
  cases op with
  | upsertArtifact | addTriplet | invalidateTriplet | supersedeTriplet | updateSparseCode => rfl
  | _ => cases h

/-- Updating a state does what the operation says, whenever it is done. -/
lemma view_applyDelta [F32 F] (ctx : ApplyCtx F) (delta : StateDeltaOp F)
    (now : MemoryState F → ℤ) :
    (ctx.modifyState delta.memoryId fun s => s.applyDelta delta (now s)).view =
      ctx.view.apply (.updateState delta) := by
  simp only [ApplyCtx.modifyState, ApplyCtx.view, StoreView.apply]
  rw [Maps.map_modifyAt (g := (·.applyDelta delta)) fun s =>
    StateView.view_applyDelta s delta (now s)]

lemma mem_of_mem_removeEdges {edges : AssocEdges F} {id src : MemoryId} {e : AssocEdge F}
    (he : e ∈ (removeEdges edges id src).getD []) : e ∈ (edges src).getD [] := by
  unfold removeEdges at he
  split at he
  · cases he
  · cases hes : edges src with
    | none => simp [hes] at he
    | some es =>
      rw [hes] at he
      exact List.mem_of_mem_filter he

/-- Marking a memory as deleted and removing its edges does what the operation says. -/
lemma view_deleted [F32 F] {ctx ctx' : ApplyCtx F} {d : DeleteMemoryOp}
    (hstates : ctx'.states = Maps.modifyAt ctx.states d.memoryId ({ · with deleted := true }))
    (hedges : ctx'.assocEdges = removeEdges ctx.assocEdges d.memoryId) :
    ctx'.view = ctx.view.apply (.deleteMemory d) := by
  simp only [ApplyCtx.view, StoreView.apply, hstates, hedges]
  rw [Maps.map_modifyAt (p := MemoryState.view) (g := fun v => { v with deleted := true })
    fun s => rfl]

/-- Replay does what an operation says. -/
lemma view_applyOp [F32 F] {op : Op F} (h : isWriteOp op = true) (ctx : ApplyCtx F) :
    (applyOp op ctx).view = ctx.view.apply op := by
  cases op with
  | putPayload put =>
    simp only [applyOp, ApplyCtx.view, StoreView.apply, Maps.map_update]
    congr 2
    cases hs : ctx.states put.memoryId <;> rfl
  | updateState d => exact view_applyDelta ctx d (·.replayNow d)
  | deleteMemory d => exact view_deleted rfl rfl
  | addAssocEdge e => rfl
  | upsertArtifact | addTriplet | invalidateTriplet | supersedeTriplet | updateSparseCode => rfl
  | _ => cases h

/-! ## Replay of the log -/

/-- Fold `applyOp` over a log. -/
def replay [F32 F] (wal : List (Op F)) : ApplyCtx F :=
  wal.foldl (fun ctx op => applyOp op ctx) .empty

/-- What a log tells. -/
def StoreView.ofLog [F32 F] (wal : List (Op F)) : StoreView F := wal.foldl StoreView.apply .empty

/-- Replay does what the log tells. -/
lemma view_replay [F32 F] {wal : List (Op F)} (h : ∀ op ∈ wal, isWriteOp op = true) :
    (replay wal).view = .ofLog wal := by
  induction wal using List.reverseRecOn with
  | nil => rfl
  | append_singleton wal op ih =>
    have hop : isWriteOp op = true := h op (by simp)
    have hwal := ih fun o ho => h o (by simp [ho])
    rw [replay, StoreView.ofLog, List.foldl_append, List.foldl_concat,
      List.foldl_cons, List.foldl_nil, view_applyOp hop]
    exact congrArg (·.apply op) hwal

lemma StoreView.ofLog_append [F32 F] (wal wal' : List (Op F)) :
    ofLog (wal ++ wal') = wal'.foldl apply (ofLog wal) :=
  List.foldl_append

/-- Operations for organs tell nothing about the memories. -/
lemma StoreView.ofLog_append_side [F32 F] (wal : List (Op F)) (ops : List (SideOp F)) :
    ofLog (wal ++ ops.map Subtype.val) = ofLog wal := by
  rw [ofLog_append]
  generalize ofLog wal = v
  induction ops with
  | nil => rfl
  | cons op ops ih => rw [List.map_cons, List.foldl_cons, v.apply_side op.2, ih]

/-! ## What the live operations do -/

namespace LiveStore

variable [F32 F]

/-- A memory is in the store. -/
def Knows (s : LiveStore F) (id : MemoryId) : Prop := (s.ctx.states id).isSome

/-- The outgoing edges of a memory. -/
def edgesOf (s : LiveStore F) (src : MemoryId) : List (AssocEdge F) := (s.ctx.assocEdges src).getD []

/-- The maps hold what the log tells, and edges and sessions name memories of the store. -/
structure Told (s : LiveStore F) : Prop where
  ops : ∀ op ∈ s.wal, isWriteOp op = true
  view : s.ctx.view = .ofLog s.wal
  fresh : ∀ id, s.nextId ≤ id → ¬s.Knows id
  edges : ∀ src, ∀ e ∈ s.edgesOf src, s.Knows src ∧ s.Knows e.dst
  recent : ∀ session, (s.sessionRecent session).Nodup ∧ ∀ id ∈ s.sessionRecent session, s.Knows id

lemma empty_told (firstId : MemoryId) : (empty firstId : LiveStore F).Told where
  ops := by simp [empty]
  view := rfl
  fresh _ _ := by simp [Knows, empty, ApplyCtx.empty]
  edges _ := by simp [edgesOf, empty, ApplyCtx.empty]
  recent _ := by simp [empty]

variable {s : LiveStore F}

lemma Told.logSide (h : s.Told) (ops : List (SideOp F)) : (s.logSide ops).Told where
  ops op hop := by
    rcases List.mem_append.mp hop with hop | hop
    · exact h.ops op hop
    · obtain ⟨⟨op, hside⟩, -, rfl⟩ := List.mem_map.mp hop
      cases op with
      | upsertArtifact | addTriplet | invalidateTriplet | supersedeTriplet | updateSparseCode => rfl
      | _ => cases hside
  view := h.view.trans (StoreView.ofLog_append_side _ _).symm
  fresh := h.fresh
  edges := h.edges
  recent := h.recent

/-- A change of the maps that does what its operation says, and neither adds a memory nor an edge
elsewhere, leaves the store as the log tells. -/
lemma Told.log (h : s.Told) {op : Op F} (hop : isWriteOp op = true) {ctx : ApplyCtx F}
    (hview : ctx.view = s.ctx.view.apply op)
    (hknown : ∀ id, (ctx.states id).isSome = (s.ctx.states id).isSome)
    (hedges : ∀ src, ∀ e ∈ (ctx.assocEdges src).getD [], s.Knows src ∧ s.Knows e.dst) :
    ({ s with ctx := ctx, wal := s.wal ++ [op] } : LiveStore F).Told := by
  have hknows : ∀ id, ({ s with ctx := ctx, wal := s.wal ++ [op] } : LiveStore F).Knows id ↔
      s.Knows id := fun id => by simp only [Knows, hknown]
  refine ⟨List.forall_mem_append.mpr ⟨h.ops, List.forall_mem_singleton.mpr hop⟩, ?_,
    fun id hid => ?_, fun src e he => ?_, fun session => ?_⟩
  · rw [hview, h.view, StoreView.ofLog_append]
    rfl
  · exact fun hknows' => h.fresh id hid ((hknows id).mp hknows')
  · exact ⟨(hknows src).mpr (hedges src e he).1, (hknows e.dst).mpr (hedges src e he).2⟩
  · exact ⟨(h.recent session).1, fun id hid => (hknows id).mpr ((h.recent session).2 id hid)⟩

/-! ### Updating and forgetting -/

lemma Told.updateState (h : s.Told) (id : MemoryId)
    (strengthDelta confidenceDelta decayRate : Option F) (touch : Bool) (pin : Option Bool) (ts : ℤ)
    (append : Except FieldError Unit) :
    (s.updateState id strengthDelta confidenceDelta decayRate touch pin ts append).1.Told := by
  unfold LiveStore.updateState
  cases hstate : s.ctx.states id with
  | none => exact h
  | some state =>
    dsimp only
    split
    · exact h
    · cases append with
      | error e => exact h
      | ok =>
        exact h.log rfl (view_applyDelta s.ctx ⟨id, strengthDelta, confidenceDelta, decayRate, touch,
          pin, ts, none, none, none, none⟩ fun _ => ts) (fun _ => Maps.isSome_modifyAt) h.edges

variable {id : MemoryId}

/-- A deletion that is synced is done. -/
lemma Told.forget (h : s.Told) {env : ForgetEnv F}
    (hsync : s.Knows id → env.append = .ok () → env.sync = .ok ()) : (s.forget id env).1.Told := by
  unfold LiveStore.forget
  cases hstate : s.ctx.states id with
  | none => exact h
  | some state =>
    dsimp only
    cases happend : env.append with
    | error e => exact h
    | ok =>
      rw [hsync (by simp [Knows, hstate]) happend]
      have hview : (forgotten s.ctx id).view = s.ctx.view.apply (.deleteMemory ⟨id, env.ts⟩) :=
        view_deleted rfl rfl
      refine Told.logSide (h.log rfl hview (fun _ => Maps.isSome_modifyAt)
        fun src e he => h.edges src e ?_) _
      exact mem_of_mem_removeEdges he

/-! ### Linking -/

/-- The call gets as far as linking the memories. -/
def Links (s : LiveStore F) (src dst : MemoryId) (edgeType : EdgeType) (env : EdgeEnv F) : Prop :=
  s.isAlive src ∧ s.isAlive dst ∧ s.edgeBlocked src dst edgeType = false ∧ env.append = .ok ()

/-- There is an edge of this type already. -/
def Linked (s : LiveStore F) (src dst : MemoryId) (edgeType : EdgeType) : Prop :=
  ∃ e ∈ s.edgesOf src, e.dst = dst ∧ e.edgeType = edgeType

/-- The store with one more edge. -/
def linked (s : LiveStore F) (src dst : MemoryId) (edgeType : EdgeType) (weight : F) :
    LiveStore F :=
  { s with
    ctx := { s.ctx with
      assocEdges := Function.update s.ctx.assocEdges src
        (some (mergeEdge dst edgeType weight (s.edgesOf src))) }
    wal := s.wal ++ [.addAssocEdge ⟨src, dst, edgeType, weight⟩] }

omit [F32 F] in
lemma isAlive_of_state {state : MemoryState F} (h : s.ctx.states id = some state)
    (hdeleted : ¬state.deleted = true) : s.isAlive id = true := by
  simp [isAlive, h, hdeleted]

omit [F32 F] in
lemma knows_of_isAlive (h : s.isAlive id = true) : s.Knows id := by
  cases hstate : s.ctx.states id with
  | none => simp [isAlive, hstate] at h
  | some state => simp [Knows, hstate]

/-- Linking logs at most triplets, or it links. -/
lemma addAssocEdge_cases (s : LiveStore F) (src dst : MemoryId) (edgeType : EdgeType) (weight : F)
    (env : EdgeEnv F) :
    (∃ ops, (s.addAssocEdge src dst edgeType weight env).1 = s.logSide ops) ∨
      s.Links src dst edgeType env ∧
        (s.addAssocEdge src dst edgeType weight env).1 = s.linked src dst edgeType weight := by
  have hnone : s = s.logSide [] := by simp [logSide]
  unfold LiveStore.addAssocEdge
  cases hsrc : s.ctx.states src with
  | none => exact Or.inl ⟨[], hnone⟩
  | some srcState =>
    dsimp only
    split
    · exact Or.inl ⟨[], hnone⟩
    rename_i hsrcAlive
    cases hdst : s.ctx.states dst with
    | none => exact Or.inl ⟨[], hnone⟩
    | some dstState =>
      dsimp only
      split
      · exact Or.inl ⟨[], hnone⟩
      rename_i hdstAlive
      split
      · exact Or.inl ⟨_, rfl⟩
      rename_i hblocked
      cases happend : env.append with
      | error e => exact Or.inl ⟨[], hnone⟩
      | ok =>
        exact Or.inr ⟨⟨isAlive_of_state hsrc hsrcAlive, isAlive_of_state hdst hdstAlive,
          by simpa using hblocked, happend⟩, rfl⟩

lemma mergeEdge_of_new {dst : MemoryId} {edgeType : EdgeType} (weight : F)
    {es : List (AssocEdge F)} (h : ¬∃ e ∈ es, e.dst = dst ∧ e.edgeType = edgeType) :
    mergeEdge dst edgeType weight es = es ++ [⟨dst, edgeType, weight⟩] := by
  induction es with
  | nil => rfl
  | cons e es ih =>
    have hhead : ¬(e.dst = dst ∧ e.edgeType = edgeType) := fun he => h ⟨e, by simp, he⟩
    have htail : ¬∃ e ∈ es, e.dst = dst ∧ e.edgeType = edgeType := fun ⟨e', he', hd⟩ =>
      h ⟨e', by simp [he'], hd⟩
    rw [mergeEdge, if_neg hhead, ih htail, List.cons_append]

variable {src dst : MemoryId}

lemma edgesOf_linked {edgeType : EdgeType} {weight : F} (hnew : ¬s.Linked src dst edgeType)
    (id : MemoryId) : (s.linked src dst edgeType weight).edgesOf id =
      if id = src then s.edgesOf src ++ [⟨dst, edgeType, weight⟩] else s.edgesOf id := by
  by_cases h : id = src
  · subst h
    simpa [linked, edgesOf] using mergeEdge_of_new weight hnew
  · simp [linked, edgesOf, h]

/-- A new edge is what the operation tells. -/
lemma Told.linked (h : s.Told) {edgeType : EdgeType} {weight : F} (hsrc : s.Knows src)
    (hdst : s.Knows dst) (hnew : ¬s.Linked src dst edgeType) :
    (s.linked src dst edgeType weight).Told := by
  refine h.log rfl ?_ (fun _ => rfl) fun id e he => ?_
  · simp only [ApplyCtx.view, StoreView.apply, mergeEdge_of_new weight hnew]
    rfl
  · have hedge : e ∈ (s.linked src dst edgeType weight).edgesOf id := he
    rw [edgesOf_linked hnew] at hedge
    split at hedge
    · rename_i heq
      subst heq
      rcases List.mem_append.mp hedge with hold | hold
      · exact h.edges id e hold
      · obtain rfl := List.mem_singleton.mp hold
        exact ⟨hsrc, hdst⟩
    · exact h.edges id e hedge

lemma Told.addAssocEdge (h : s.Told) {edgeType : EdgeType} {weight : F} {env : EdgeEnv F}
    (hnew : s.Links src dst edgeType env → ¬s.Linked src dst edgeType) :
    (s.addAssocEdge src dst edgeType weight env).1.Told := by
  rcases s.addAssocEdge_cases src dst edgeType weight env with ⟨ops, heq⟩ | ⟨hlinks, heq⟩
  · exact heq ▸ h.logSide ops
  · exact heq ▸ h.linked (knows_of_isAlive hlinks.1) (knows_of_isAlive hlinks.2.1) (hnew hlinks)

/-- Linking adds at most the edge that it names. -/
lemma edgesOf_addAssocEdge {edgeType : EdgeType} {weight : F} {env : EdgeEnv F}
    (hnew : s.Links src dst edgeType env → ¬s.Linked src dst edgeType) {e : AssocEdge F}
    (he : e ∈ (s.addAssocEdge src dst edgeType weight env).1.edgesOf id) :
    e ∈ s.edgesOf id ∨ id = src ∧ e.dst = dst := by
  rcases s.addAssocEdge_cases src dst edgeType weight env with ⟨ops, heq⟩ | ⟨hlinks, heq⟩
  · rw [heq] at he
    exact Or.inl he
  · rw [heq, edgesOf_linked (hnew hlinks)] at he
    split at he
    · rename_i hid
      subst hid
      rcases List.mem_append.mp he with hold | hold
      · exact Or.inl hold
      · exact Or.inr ⟨rfl, by rw [List.mem_singleton.mp hold]⟩
    · exact Or.inl he

/-- Linking changes no memory and no session. -/
lemma addAssocEdge_frame (s : LiveStore F) (src dst : MemoryId) (edgeType : EdgeType) (weight : F)
    (env : EdgeEnv F) :
    (s.addAssocEdge src dst edgeType weight env).1.ctx.states = s.ctx.states ∧
      (s.addAssocEdge src dst edgeType weight env).1.sessionRecent = s.sessionRecent := by
  rcases s.addAssocEdge_cases src dst edgeType weight env with ⟨ops, heq⟩ | ⟨-, heq⟩ <;>
    rw [heq] <;> exact ⟨rfl, rfl⟩

lemma densifyLoop_frame (newId : MemoryId) (env : MemoryId × MemoryId → EdgeEnv F)
    (prevs : List MemoryId) (weight : F) (s : LiveStore F) :
    (densifyLoop newId env prevs weight s).ctx.states = s.ctx.states ∧
      (densifyLoop newId env prevs weight s).sessionRecent = s.sessionRecent := by
  induction prevs generalizing weight s with
  | nil => exact ⟨rfl, rfl⟩
  | cons prev rest ih =>
    have hstep := fun (s : LiveStore F) src dst =>
      s.addAssocEdge_frame src dst .sameSession weight (env (src, dst))
    rw [densifyLoop]
    refine ⟨(ih _ _).1.trans ?_, (ih _ _).2.trans ?_⟩
    · exact (hstep _ _ _).1.trans (hstep _ _ _).1
    · exact (hstep _ _ _).2.trans (hstep _ _ _).2

/-- There is no edge between a memory and any of the others. -/
def Unlinked (s : LiveStore F) (newId : MemoryId) (prevs : List MemoryId) : Prop :=
  ∀ prev ∈ prevs, (∀ e ∈ s.edgesOf newId, e.dst ≠ prev) ∧ ∀ e ∈ s.edgesOf prev, e.dst ≠ newId

/-- Linking a memory with siblings that it has no edge with adds no edge twice. -/
lemma Told.densifyLoop {newId : MemoryId} (env : MemoryId × MemoryId → EdgeEnv F)
    {prevs : List MemoryId} (hnodup : prevs.Nodup) (hnot : newId ∉ prevs) (weight : F) (h : s.Told)
    (hun : s.Unlinked newId prevs) : (densifyLoop newId env prevs weight s).Told := by
  induction prevs generalizing weight s with
  | nil => exact h
  | cons prev rest ih =>
    obtain ⟨hprev, hrest⟩ := List.nodup_cons.mp hnodup
    obtain ⟨hne, hnotRest⟩ := not_or.mp (fun hor => hnot (List.mem_cons.mpr hor))
    have hun' := hun prev (by simp)
    have hnew : ¬s.Linked newId prev .sameSession := fun ⟨e, he, hdst, _⟩ => hun'.1 e he hdst
    have hnew' : ¬(s.addAssocEdge newId prev .sameSession weight (env (newId, prev))).1.Linked prev
        newId .sameSession := by
      rintro ⟨e, he, hdst, -⟩
      rcases edgesOf_addAssocEdge (fun _ => hnew) he with hold | ⟨heq, -⟩
      · exact hun'.2 e hold hdst
      · exact hne heq.symm
    refine ih hrest hnotRest _ ((h.addAssocEdge fun _ => hnew).addAssocEdge fun _ => hnew') ?_
    intro other hother
    have hother' := hun other (by simp [hother])
    have hneOther : other ≠ prev := fun heq => hprev (heq ▸ hother)
    have hneNew : other ≠ newId := fun heq => hnotRest (heq ▸ hother)
    refine ⟨fun e he => ?_, fun e he => ?_⟩
    · rcases edgesOf_addAssocEdge (fun _ => hnew') he with he | ⟨heq, -⟩
      · rcases edgesOf_addAssocEdge (fun _ => hnew) he with hold | ⟨-, hdst⟩
        · exact hother'.1 e hold
        · exact hdst ▸ hneOther.symm
      · exact absurd heq hne
    · rcases edgesOf_addAssocEdge (fun _ => hnew') he with he | ⟨heq, -⟩
      · rcases edgesOf_addAssocEdge (fun _ => hnew) he with hold | ⟨heq, -⟩
        · exact hother'.2 e hold
        · exact absurd heq hneNew
      · exact absurd heq hneOther

/-- A new memory joins its session. -/
lemma Told.densifyWriteEdges (h : s.Told) (cfg : WriteConfig F) {newId : MemoryId}
    (hknown : s.Knows newId) (hout : ∀ e, e ∉ s.edgesOf newId)
    (hin : ∀ src, ∀ e ∈ s.edgesOf src, e.dst ≠ newId) (realm : String) (session : Option String)
    (env : MemoryId × MemoryId → EdgeEnv F) :
    (s.densifyWriteEdges cfg newId realm session env).Told := by
  unfold LiveStore.densifyWriteEdges
  cases session with
  | none => exact h
  | some session =>
    dsimp only
    split
    · exact h
    rename_i hskip
    have hring : newId ∉ s.sessionRecent session := by
      intro hmem
      simp [hmem] at hskip
    have hsiblings : (s.siblings newId realm session).Sublist (s.sessionRecent session).reverse :=
      ((List.take_sublist _ _).trans List.filter_sublist).trans List.filter_sublist
    have hmem : newId ∉ s.siblings newId realm session := fun hmem =>
      hring (List.mem_reverse.mp (hsiblings.subset hmem))
    have hnodup := hsiblings.nodup (List.nodup_reverse.mpr (h.recent session).1)
    have htold := h.densifyLoop env hnodup hmem (F32.lit (6 / 10))
      fun prev _ => ⟨fun e he => absurd he (hout e), hin prev⟩
    obtain ⟨hstates, hrecent⟩ := densifyLoop_frame newId env (s.siblings newId realm session)
      (F32.lit (6 / 10)) s
    refine ⟨htold.ops, htold.view, htold.fresh, htold.edges, fun session' => ?_⟩
    by_cases heq : session' = session
    · subst heq
      simp only [Function.update_self]
      have hdrop := List.drop_sublist (((s.sessionRecent session') ++ [newId]).length - densifyK)
        (s.sessionRecent session' ++ [newId])
      rw [hrecent]
      refine ⟨hdrop.nodup ?_, fun id hid => ?_⟩
      · exact List.nodup_append.mpr ⟨(h.recent session').1, List.nodup_singleton _,
          fun a ha b hb hab => hring (List.mem_singleton.mp hb ▸ hab ▸ ha)⟩
      · have hknows : s.Knows id := by
          rcases List.mem_append.mp (hdrop.subset hid) with hid | hid
          · exact (h.recent session').2 id hid
          · exact List.mem_singleton.mp hid ▸ hknown
        simpa [Knows, hstates] using hknows
    · simp only [Function.update_of_ne heq]
      exact htold.recent session'

/-! ### Storing -/

/-- The call gets as far as storing a new memory. -/
def Stores (cfg : WriteConfig F) (s : LiveStore F) (call : PutCall F) (env : PutEnv F) : Prop :=
  (call.embedding = [] ∨ call.embedding.length = cfg.embedDim) ∧
    s.duplicateOf cfg call env.nearest = none ∧ env.append = .ok ()

/-- A new memory has the confidence and, burned in or not, the decay rate that replay gives it. -/
def Plain (call : PutCall F) (env : PutEnv F) : Prop :=
  call.confidence = F32.lit 1 ∧
    (burnsIn env.combinedSurprisal = false → call.decayRate = F32.lit (1 / 1000)) ∧
    (burnsIn env.combinedSurprisal = true →
      F32.max (F32.mul call.decayRate (F32.lit (5 / 10))) (F32.lit (1 / 1000000)) =
        F32.lit (1 / 1000))

lemma view_newState (cfg : WriteConfig F) (payloads : MemoryId → Option (MemoryPayload F))
    (id : MemoryId) {call : PutCall F} {env : PutEnv F} (h : Plain call env) :
    (newState cfg payloads id call env).view = .new := by
  have hdecay : burnIn env.combinedSurprisal call.decayRate = F32.lit (1 / 1000) := by
    unfold burnIn
    split
    · rename_i hburns
      exact h.2.2 hburns
    · rename_i hburns
      exact h.2.1 (by simpa using hburns)
  simp [newState, MemoryState.view, MemoryState.new, StateView.new, h.1, hdecay]

/-- A new memory is what the operation tells. -/
lemma Told.stored (h : s.Told) (op : PutPayloadOp F) (hid : op.memoryId = s.nextId)
    (payload : MemoryPayload F) {state : MemoryState F} (hstate : state.view = .new)
    (chunkHashIdx : ChunkHash → Option MemoryId) (contentProvIdx : ℕ → Option MemoryId) :
    (⟨LiveStore.stored s.ctx s.nextId payload state, s.nextId + 1, chunkHashIdx, contentProvIdx,
      s.sessionRecent, s.wal ++ [.putPayload op]⟩ : LiveStore F).Told := by
  have hfresh : s.ctx.states s.nextId = none := by
    simpa [Knows] using h.fresh s.nextId le_rfl
  have hknows : ∀ id, s.Knows id →
      (Function.update s.ctx.states s.nextId (some state) id).isSome := by
    intro id hid
    by_cases heq : id = s.nextId
    · simp [heq]
    · rw [Function.update_of_ne heq]
      exact hid
  refine ⟨List.forall_mem_append.mpr ⟨h.ops, List.forall_mem_singleton.mpr rfl⟩, ?_,
    fun id hid => ?_, fun src e he => ?_, fun session => ?_⟩
  · rw [StoreView.ofLog_append, ← h.view]
    simp only [ApplyCtx.view, LiveStore.stored, Maps.map_update, Option.map_some, hstate,
      List.foldl_cons, List.foldl_nil, StoreView.apply, hid, hfresh, Option.map_none,
      Option.getD_none]
  · have hlt : s.nextId < id := hid
    simpa [Knows, LiveStore.stored, hlt.ne'] using h.fresh id hlt.le
  · exact ⟨hknows _ (h.edges src e he).1, hknows _ (h.edges src e he).2⟩
  · exact ⟨(h.recent session).1, fun id hid => hknows _ ((h.recent session).2 id hid)⟩

lemma Told.putNew (h : s.Told) (cfg : WriteConfig F) {call : PutCall F} {env : PutEnv F}
    (hplain : env.append = .ok () → Plain call env) : (s.putNew cfg call env).1.Told := by
  unfold LiveStore.putNew
  dsimp only
  generalize (if call.artifactRefs.isEmpty then env.derived else []) = derived
  have hside := h.logSide derived
  cases happend : env.append with
  | error e =>
    exact ⟨hside.ops, hside.view, fun id hid => h.fresh id ((Nat.le_succ _).trans hid), h.edges,
      h.recent⟩
  | ok =>
    have hstored := fun payload payloads => hside.stored (putOp cfg s.nextId call env) rfl payload
      (view_newState cfg payloads s.nextId (hplain happend))
    -- no edge names the new memory
    refine ((hstored _ _ _ _).logSide env.encoded).densifyWriteEdges cfg ?_ (fun e he => ?_)
      (fun src e he heq => ?_) _ _ _
    · exact Option.isSome_iff_exists.mpr ⟨_, Function.update_self ..⟩
    · exact h.fresh s.nextId le_rfl (h.edges _ e he).1
    · exact h.fresh s.nextId le_rfl (heq ▸ (h.edges _ e he).2)

/-- Storing a memory, or reinforcing the one that is stored already. -/
lemma Told.putMemory (h : s.Told) (cfg : WriteConfig F) {call : PutCall F} {env : PutEnv F}
    (hplain : s.Stores cfg call env → Plain call env) : (s.putMemory cfg call env).1.Told := by
  unfold LiveStore.putMemory
  split
  · exact h
  rename_i hdim
  cases hdup : s.duplicateOf cfg call env.nearest with
  | some target =>
    dsimp only
    have hupdated := h.updateState target.1 (some (F32.lit 0)) (some target.2) none true none env.ts
      env.append
    cases env.replication with
    | error e => exact hupdated
    | ok sessions => exact hupdated.logSide sessions
  | none =>
    refine h.putNew cfg fun happend => hplain ⟨?_, hdup, happend⟩
    by_cases hempty : call.embedding = []
    · exact Or.inl hempty
    · exact Or.inr (by simpa [hempty] using hdim)

/-! ## Runs -/

/-- A call uses nothing that its log leaves out. -/
def Logs (cfg : WriteConfig F) (s : LiveStore F) : WriteCall F → Prop
  | .putMemory call env => s.Stores cfg call env → Plain call env
  | .updateState .. => True
  | .forget id env => s.Knows id → env.append = .ok () → env.sync = .ok ()
  | .addAssocEdge src dst edgeType _ env =>
    s.Links src dst edgeType env → ¬s.Linked src dst edgeType

/-- Every call of a run uses nothing that its log leaves out. -/
def LogsAll (cfg : WriteConfig F) (s : LiveStore F) : List (WriteCall F) → Prop
  | [] => True
  | call :: calls => s.Logs cfg call ∧ LogsAll cfg (s.step cfg call) calls

/-- One call. -/
lemma Told.step (h : s.Told) {cfg : WriteConfig F} {call : WriteCall F} (hlogs : s.Logs cfg call) :
    (s.step cfg call).Told := by
  cases call with
  | putMemory => exact h.putMemory cfg hlogs
  | updateState => exact h.updateState ..
  | forget => exact h.forget hlogs
  | addAssocEdge => exact h.addAssocEdge hlogs

lemma Told.run (h : s.Told) {cfg : WriteConfig F} {calls : List (WriteCall F)}
    (hlogs : s.LogsAll cfg calls) : (s.run cfg calls).Told := by
  induction calls generalizing s with
  | nil => exact h
  | cons call calls ih => exact ih (h.step hlogs.1) hlogs.2

end LiveStore

/-- Replay of the log of a run rebuilds the live memories and edges, if no call uses what it does
not log. -/
theorem live_replay_agree [F32 F] (cfg : WriteConfig F) (firstId : MemoryId)
    {calls : List (LiveStore.WriteCall F)} (hlogs : (LiveStore.empty firstId).LogsAll cfg calls) :
    let s := (LiveStore.empty firstId).run cfg calls
    (∀ id, (s.ctx.states id).map MemoryState.view =
      ((replay s.wal).states id).map MemoryState.view) ∧
      s.ctx.assocEdges = (replay s.wal).assocEdges := by
  intro s
  have htold := (LiveStore.empty_told firstId).run hlogs
  have hview : s.ctx.view = (replay s.wal).view := htold.view.trans (view_replay htold.ops).symm
  exact ⟨fun id => congrFun (congrArg StoreView.states hview) id, congrArg StoreView.assocEdges hview⟩

/-! ## Two memories of a session -/

/-- A store that links the memories of a session. -/
def sampleConfig : WriteConfig ℚ where
  embedDim := 2
  embedModelId := "model"
  computeChunkHash _ _ content _ := content
  contentHash _ := 0
  dedupCosineThreshold := 88 / 100
  dedupCosineUpper := 999 / 1000
  densifyEnabled := true

/-- Store a short memory in a session; nothing surprises, and every append succeeds. -/
def samplePut (content : Bytes) (confidence : ℚ) (ts : ℤ) : LiveStore.WriteCall ℚ :=
  .putMemory ⟨"insight", "work", content, [], confidence, 1 / 1000, 0, [], some "session", none⟩
    ⟨ts, none, [], none, none, [], [], .ok (), [], .ok [], fun _ => ⟨[], .ok ()⟩⟩

/-- Link the two memories. -/
def sampleLink (weight : ℚ) : LiveStore.WriteCall ℚ :=
  .addAssocEdge 1 2 .derivedFrom weight ⟨[], .ok ()⟩

/-- Replay gives a memory of little confidence full confidence, and it adds an edge twice that is
there once. -/
theorem replay_forgets_confidence :
    let s := (LiveStore.empty 1).run sampleConfig [samplePut [1] (7 / 10) 5]
    let t := (LiveStore.empty 1).run sampleConfig
      [samplePut [1] 1 5, samplePut [2] 1 6, sampleLink (1 / 2), sampleLink (1 / 4)]
    ((s.ctx.states 1).map (·.view.confidence) = some (7 / 10) ∧
      ((replay s.wal).states 1).map (·.view.confidence) = some 1) ∧
    (t.ctx.assocEdges 1).map List.length = some 2 ∧
      ((replay t.wal).assocEdges 1).map List.length = some 3 := by
  decide +kernel

/-- Two memories are stored and linked, the first is updated, and the second is forgotten. -/
def sampleCalls : List (LiveStore.WriteCall ℚ) :=
  [samplePut [1] 1 5, samplePut [2] 1 6, sampleLink (1 / 2),
    .updateState 1 (some (-1 / 2)) none none true (some true) 7 (.ok ()),
    .forget 2 ⟨8, .ok (), .ok (), []⟩]

/-- Replay rebuilds the two memories. -/
theorem live_replay_agree_sample :
    let s := (LiveStore.empty 1).run sampleConfig sampleCalls
    (∀ id, (s.ctx.states id).map MemoryState.view =
      ((replay s.wal).states id).map MemoryState.view) ∧
      s.ctx.assocEdges = (replay s.wal).assocEdges := by
  have hplain : ∀ content ts, LiveStore.Plain
      ⟨"insight", "work", content, [], (1 : ℚ), 1 / 1000, 0, [], some "session", none⟩
      ⟨ts, none, [], none, none, [], [], .ok (), [], .ok [], fun _ => ⟨[], .ok ()⟩⟩ :=
    fun _ _ => ⟨rfl, fun _ => rfl, fun h => Bool.noConfusion h⟩
  refine live_replay_agree sampleConfig 1 ⟨fun _ => hplain _ _, fun _ => hplain _ _, fun _ => ?_,
    trivial, fun _ _ => rfl, trivial⟩
  unfold LiveStore.Linked
  decide +kernel

end ChittaField
