import ChittaField.Log.Coverage
import ChittaField.Memory.Lifecycle

/-!
# Startup replay

`replayWal` applies what merge replay hands over to the maps of the loaded snapshot.  An explicit
update, and an access of a batch, of a memory that is not there yet waits until everything else is
applied.  Every other operation is applied at once, and on a memory that is not there yet it does
nothing.

So replay is a fold of `applyOp` over the same operations in another order (`replayWal_eq`), and
`replay_loses_nothing_iff` says when each operation on a memory takes effect.
-/

namespace ChittaField

variable {F : Type}

/-! ## The loop -/

/-- The maps and the updates that wait. -/
structure Replaying (F : Type) where
  ctx : ApplyCtx F
  orphanDeltas : List (StateDeltaOp F)
  orphanAccesses : List (StateDeltaOp F)

namespace Replaying

variable [F32 F]

/-- An access of a batch. -/
def access (r : Replaying F) (d : StateDeltaOp F) : Replaying F :=
  if (r.ctx.states d.memoryId).isSome then
    { r with ctx := r.ctx.modifyState d.memoryId (·.applyAccessDelta d) }
  else { r with orphanAccesses := r.orphanAccesses ++ [d] }

/-- An operation that neither snapshot holds. -/
def step (r : Replaying F) (op : Op F) : Replaying F :=
  match op with
  | .updateStateBatch deltas => deltas.foldl access r
  | .updateState d =>
    if (r.ctx.states d.memoryId).isSome then { r with ctx := applyOp (.updateState d) r.ctx }
    else { r with orphanDeltas := r.orphanDeltas ++ [d] }
  | op => { r with ctx := applyOp op r.ctx }

/-- Retry the updates that wait. -/
def finish (r : Replaying F) : ApplyCtx F :=
  let ctx := r.orphanDeltas.foldl (fun ctx d =>
    ctx.modifyState d.memoryId fun s => s.applyDelta d (s.replayNow d)) r.ctx
  r.orphanAccesses.foldl (fun ctx d => ctx.modifyState d.memoryId (·.applyAccessDelta d)) ctx

end Replaying

/-- The records of all writers in merge order. -/
def mergeOrder (recs : List (InstanceId × ℕ × Op F)) : List (InstanceId × ℕ × Op F) :=
  ((Stamper.empty.pushAll recs).buf.insertionSort mergeLE).map Stamped.handed

/-- Merge order hands over every record once. -/
lemma mergeOrder_perm (recs : List (InstanceId × ℕ × Op F)) : (mergeOrder recs).Perm recs := by
  have hsort := (List.perm_insertionSort mergeLE (Stamper.empty.pushAll recs).buf).map Stamped.handed
  rw [Stamper.pushAll_handed] at hsort
  exact hsort

/-- The operations that neither snapshot holds, in the order they are handed over. -/
def LoadedSnapshots.passed (s : LoadedSnapshots) (handed : List (InstanceId × ℕ × Op F)) :
    List (Op F) :=
  (handed.filter fun o => s.passes o.1 o.2.1 o.2.2).map (·.2.2)

/-- Replay into the maps of the loaded snapshots. -/
def replayWal [F32 F] (s : LoadedSnapshots) (ctx : ApplyCtx F)
    (handed : List (InstanceId × ℕ × Op F)) : ApplyCtx F :=
  ((s.passed handed).foldl Replaying.step ⟨ctx, [], []⟩).finish

/-! ## The order of application -/

/-- The memory that an operation creates. -/
def creates : Op F → Option MemoryId
  | .putPayload put => some put.memoryId
  | _ => none

/-- The memories that are known after an operation. -/
def learn (known : MemoryId → Bool) (op : Op F) (id : MemoryId) : Bool :=
  known id || creates op = some id

/-- The memories of a map. -/
def ApplyCtx.knows (ctx : ApplyCtx F) (id : MemoryId) : Bool := (ctx.states id).isSome

/-- What the operations contribute, each seen with the memories that are known before it. -/
def gather {α : Type} (f : (MemoryId → Bool) → Op F → List α) :
    (MemoryId → Bool) → List (Op F) → List α
  | _, [] => []
  | known, op :: ops => f known op ++ gather f (learn known op) ops

/-- What is applied at once. -/
def atOnce (known : MemoryId → Bool) : Op F → List (Op F)
  | .updateStateBatch deltas =>
    (deltas.filter fun d => known d.memoryId).map fun d => .updateStateBatch [d]
  | .updateState d => if known d.memoryId then [.updateState d] else []
  | op => [op]

/-- The explicit updates that wait. -/
def lateDeltas (known : MemoryId → Bool) : Op F → List (StateDeltaOp F)
  | .updateState d => if known d.memoryId then [] else [d]
  | _ => []

/-- The accesses that wait. -/
def lateAccesses (known : MemoryId → Bool) : Op F → List (StateDeltaOp F)
  | .updateStateBatch deltas => deltas.filter fun d => !known d.memoryId
  | _ => []

/-- The order in which replay applies operations. -/
def applyOrder (known : MemoryId → Bool) (ops : List (Op F)) : List (Op F) :=
  gather atOnce known ops ++ ((gather lateDeltas known ops).map .updateState ++
    (gather lateAccesses known ops).map fun d => .updateStateBatch [d])

/-- A batch, one access at a time. -/
def unbatched : Op F → List (Op F)
  | .updateStateBatch deltas => deltas.map fun d => .updateStateBatch [d]
  | op => [op]

/-- Apply operations one after the other. -/
def applyAll [F32 F] (ctx : ApplyCtx F) (ops : List (Op F)) : ApplyCtx F :=
  ops.foldl (fun ctx op => applyOp op ctx) ctx

lemma applyAll_append [F32 F] (ctx : ApplyCtx F) (ops ops' : List (Op F)) :
    applyAll ctx (ops ++ ops') = applyAll (applyAll ctx ops) ops' :=
  List.foldl_append

/-- The order in which replay applies one operation. -/
lemma atOnce_perm (known : MemoryId → Bool) (op : Op F) :
    (atOnce known op ++ ((lateDeltas known op).map Op.updateState ++
      (lateAccesses known op).map fun d => Op.updateStateBatch [d])).Perm (unbatched op) := by
  cases op with
  | updateStateBatch deltas =>
    have hsplit := List.filter_append_perm (fun d : StateDeltaOp F => known d.memoryId) deltas
    simpa only [atOnce, lateDeltas, lateAccesses, unbatched, List.map_nil, List.nil_append,
      List.map_append] using hsplit.map fun d => Op.updateStateBatch [d]
  | updateState d =>
    by_cases h : known d.memoryId <;> simp [atOnce, lateDeltas, lateAccesses, unbatched, h]
  | _ => exact List.Perm.refl _

/-- Each operation is applied once. -/
theorem applyOrder_perm (known : MemoryId → Bool) (ops : List (Op F)) :
    (applyOrder known ops).Perm (ops.flatMap unbatched) := by
  induction ops generalizing known with
  | nil => exact List.Perm.refl _
  | cons op ops ih =>
    refine List.Perm.trans ?_ ((atOnce_perm known op).append (ih (learn known op)))
    simp only [applyOrder, gather, List.map_append]
    refine List.Perm.trans ?_ (Lists.append_append_perm _ _ _ _)
    exact (Lists.append_append_perm _ _ _ _).append_left _

/-! ## Replay is a fold -/

variable [F32 F]

/-- An operation makes the memory known that it creates, and no other. -/
lemma knows_applyOp (op : Op F) (ctx : ApplyCtx F) :
    (applyOp op ctx).knows = learn ctx.knows op := by
  funext id
  rw [ApplyCtx.knows, states_applyOp, Option.isSome_map, Option.isSome_or]
  cases op with
  | putPayload put => by_cases h : put.memoryId = id <;> simp [created, learn, creates, h, ApplyCtx.knows]
  | _ => rfl

/-- A batch, sorted into accesses that are applied at once and accesses that wait. -/
lemma Replaying.foldl_access (r : Replaying F) (deltas : List (StateDeltaOp F)) :
    deltas.foldl access r =
      { r with
        ctx := applyAll r.ctx (atOnce r.ctx.knows (.updateStateBatch deltas))
        orphanAccesses := r.orphanAccesses ++
          lateAccesses r.ctx.knows (.updateStateBatch deltas) } := by
  induction deltas generalizing r with
  | nil => simp [atOnce, lateAccesses, applyAll]
  | cons d deltas ih =>
    rw [List.foldl_cons, ih]
    by_cases h : r.ctx.knows d.memoryId
    · have haccess : r.access d =
          { r with ctx := r.ctx.modifyState d.memoryId (·.applyAccessDelta d) } := if_pos h
      have hknows : (r.ctx.modifyState d.memoryId (·.applyAccessDelta d)).knows = r.ctx.knows :=
        funext fun id => Maps.isSome_modifyAt
      simp only [haccess, hknows, atOnce, lateAccesses, List.filter_cons, h, if_true,
        Bool.not_true, Bool.false_eq_true, if_false, List.map_cons]
      rfl
    · have haccess : r.access d = { r with orphanAccesses := r.orphanAccesses ++ [d] } := if_neg h
      simp [haccess, atOnce, lateAccesses, h]

/-- An operation, sorted into what is applied at once and what waits. -/
lemma Replaying.step_eq (r : Replaying F) (op : Op F) :
    r.step op = ⟨applyAll r.ctx (atOnce r.ctx.knows op),
      r.orphanDeltas ++ lateDeltas r.ctx.knows op,
      r.orphanAccesses ++ lateAccesses r.ctx.knows op⟩ := by
  cases op with
  | updateStateBatch deltas =>
    have hlate : lateDeltas r.ctx.knows (.updateStateBatch deltas) = [] := rfl
    rw [hlate, List.append_nil]
    exact foldl_access r deltas
  | updateState d =>
    by_cases h : r.ctx.knows d.memoryId
    · have hstep : r.step (.updateState d) = { r with ctx := applyOp (.updateState d) r.ctx } :=
        if_pos h
      simp [hstep, atOnce, lateDeltas, lateAccesses, h, applyAll]
    · have hstep : r.step (.updateState d) = { r with orphanDeltas := r.orphanDeltas ++ [d] } :=
        if_neg h
      simp [hstep, atOnce, lateDeltas, lateAccesses, h, applyAll]
  | _ => simp [step, atOnce, lateDeltas, lateAccesses, applyAll]

/-- What was applied at once makes the same memories known as the operation. -/
lemma knows_applyAll_atOnce (ctx : ApplyCtx F) (op : Op F) :
    (applyAll ctx (atOnce ctx.knows op)).knows = learn ctx.knows op := by
  have hone := knows_applyOp op ctx
  cases op with
  | updateStateBatch deltas =>
    have hall : ∀ ctx : ApplyCtx F, ∀ l : List (StateDeltaOp F),
        (applyAll ctx (l.map fun d => .updateStateBatch [d])).knows = ctx.knows := by
      intro ctx l
      induction l generalizing ctx with
      | nil => rfl
      | cons d l ih =>
        refine (ih _).trans ((knows_applyOp _ ctx).trans (funext fun id => ?_))
        simp [learn, creates]
    rw [atOnce, hall]
    exact funext fun id => (Bool.or_false _).symm
  | updateState d =>
    by_cases h : ctx.knows d.memoryId
    · rw [atOnce, if_pos h]
      exact hone
    · rw [atOnce, if_neg h]
      exact funext fun id => (Bool.or_false _).symm
  | _ => exact hone

/-- The loop sorts all operations. -/
lemma Replaying.foldl_step (r : Replaying F) (ops : List (Op F)) :
    ops.foldl step r = ⟨applyAll r.ctx (gather atOnce r.ctx.knows ops),
      r.orphanDeltas ++ gather lateDeltas r.ctx.knows ops,
      r.orphanAccesses ++ gather lateAccesses r.ctx.knows ops⟩ := by
  induction ops generalizing r with
  | nil => simp [gather, applyAll]
  | cons op ops ih =>
    rw [List.foldl_cons, ih, step_eq]
    simp only [knows_applyAll_atOnce, gather, applyAll_append, List.append_assoc]

/-- Replay applies the operations with `applyOp`, those that wait last. -/
theorem replayWal_eq (s : LoadedSnapshots) (ctx : ApplyCtx F)
    (handed : List (InstanceId × ℕ × Op F)) :
    replayWal s ctx handed = applyAll ctx (applyOrder ctx.knows (s.passed handed)) := by
  rw [replayWal, Replaying.foldl_step, applyOrder, applyAll_append, applyAll_append]
  simp only [Replaying.finish, List.nil_append, applyAll, List.foldl_map]
  rfl

/-! ## Taking effect -/

/-- An operation takes effect on a memory: what it changes is there, and the fence lets it pass.
Operations on other memories count as such. -/
def takesEffect (m : MemoryId) (ctx : ApplyCtx F) : Op F → Bool
  | .updateState d => d.memoryId ≠ m ||
    (ctx.states m).any fun s => !(0 < d.opTsMs && d.opTsMs ≤ s.lastStateOpTsMs)
  | .updateStateBatch deltas => deltas.all fun d => d.memoryId ≠ m || (ctx.states m).isSome
  | .deleteMemory d => d.memoryId ≠ m || (ctx.states m).isSome && (ctx.payloads m).isSome
  | .demoteMemory d => d.memoryId ≠ m || (ctx.states m).isSome
  | .recordOutcome r => r.memoryId ≠ m || (ctx.states m).isSome
  | .updateMemoryContent u => u.memoryId ≠ m || (ctx.payloads m).isSome
  | .updateMemoryKind u => u.memoryId ≠ m || (ctx.payloads m).isSome
  | _ => true

/-- Of operations that are applied one after the other, each takes effect. -/
def eachTakesEffect (m : MemoryId) : ApplyCtx F → List (Op F) → Bool
  | _, [] => true
  | ctx, op :: ops => takesEffect m ctx op && eachTakesEffect m (applyOp op ctx) ops

/-- Replay loses nothing that is said of a memory. -/
structure LosesNothing (s : LoadedSnapshots) (ctx : ApplyCtx F)
    (handed : List (InstanceId × ℕ × Op F)) (m : MemoryId) : Prop where
  effects : eachTakesEffect m ctx (applyOrder ctx.knows (s.passed handed)) = true
  /-- A deletion in front of the creation leaves the memory deleted, without content. -/
  deletion : ∀ before d after, s.passed handed = before ++ .deleteMemory d :: after →
    d.memoryId = m → ctx.states m = none → (∀ op ∈ before, creates op ≠ some m) →
    ((replayWal s ctx handed).states m).any (·.deleted) = true ∧
      ((replayWal s ctx handed).payloads m).any (·.content.isEmpty) = true

/-! ## The order that loses nothing -/

/-- The operation changes the state of a memory at once. -/
def needsState (m : MemoryId) : Op F → Bool
  | .deleteMemory d => d.memoryId = m
  | .demoteMemory d => d.memoryId = m
  | .recordOutcome r => r.memoryId = m
  | _ => false

/-- The operation changes the payload of a memory at once. -/
def needsPayload (m : MemoryId) : Op F → Bool
  | .deleteMemory d => d.memoryId = m
  | .updateMemoryContent u => u.memoryId = m
  | .updateMemoryKind u => u.memoryId = m
  | _ => false

/-- The operation changes the state of a memory, and waits for it. -/
def updatesState (m : MemoryId) : Op F → Bool
  | .updateState d => d.memoryId = m
  | .updateStateBatch deltas => deltas.any fun d => d.memoryId = m
  | _ => false

/-- The operations that need a memory stand behind one that creates it, unless it is known from the
start. -/
def Preceded (m : MemoryId) (need : Op F → Bool) : Bool → List (Op F) → Prop
  | _, [] => True
  | known, op :: ops =>
    (need op = true → known = true) ∧ Preceded m need (known || creates op = some m) ops

/-- The time of the last explicit update of a memory. -/
def fence (ctx : ApplyCtx F) (m : MemoryId) : ℤ :=
  ((ctx.states m).map fun s => s.lastStateOpTsMs).getD 0

/-- The times of the explicit updates of a memory. -/
def updateTimes (m : MemoryId) (ops : List (Op F)) : List ℤ :=
  ops.filterMap fun
    | .updateState d => if d.memoryId = m then some d.opTsMs else none
    | _ => none

/-- What changes a memory at once stands behind its creation, and the explicit updates that have a
time come in the order of their times, where those that wait come last. -/
structure InOrder (ctx : ApplyCtx F) (m : MemoryId) (ops : List (Op F)) : Prop where
  state : Preceded m (needsState m) (ctx.states m).isSome ops
  payload : Preceded m (needsPayload m) (ctx.payloads m).isSome ops
  newer : (fence ctx m :: updateTimes m (applyOrder ctx.knows ops)).Pairwise
    fun t t' => 0 < t' → t < t'

variable {ops : List (Op F)}

section

omit [F32 F]

variable {m : MemoryId} {need need' : Op F → Bool} {known : Bool}

lemma preceded_append {ops ops' : List (Op F)} : Preceded m need known (ops ++ ops') ↔
    Preceded m need known ops ∧
      Preceded m need (known || ops.any fun op => creates op = some m) ops' := by
  induction ops generalizing known with
  | nil => simp [Preceded]
  | cons op ops ih => simp only [List.cons_append, Preceded, ih, List.any_cons, and_assoc,
      Bool.or_assoc]

lemma preceded_of_idle (h : ∀ op ∈ ops, need op = false) : Preceded m need known ops := by
  induction ops generalizing known with
  | nil => trivial
  | cons op ops ih =>
    exact ⟨by simp [h op List.mem_cons_self], ih (List.forall_mem_cons.mp h).2⟩

lemma preceded_of_known : Preceded m need true ops := by
  induction ops with
  | nil => trivial
  | cons op ops ih => exact ⟨fun _ => rfl, by simpa using ih⟩

/-- What needs a memory that is not known from the start stands behind a creation. -/
lemma Preceded.exists_creates {before after : List (Op F)} {op : Op F}
    (h : Preceded m need false (before ++ op :: after)) (hop : need op = true) :
    ∃ op' ∈ before, creates op' = some m := by
  have hknown := (preceded_append.mp h).2.1 hop
  simpa using hknown

/-- An operation creates the same memory whether it is applied at once or has to wait. -/
lemma any_creates_atOnce (known : MemoryId → Bool) (op : Op F) :
    ((atOnce known op).any fun op => creates op = some m) = decide (creates op = some m) := by
  cases op with
  | updateStateBatch deltas => simp [atOnce, creates]
  | updateState d => by_cases h : known d.memoryId <;> simp [atOnce, creates, h]
  | _ => simp [atOnce]

lemma any_creates_gather (known : MemoryId → Bool) (ops : List (Op F)) :
    ((gather atOnce known ops).any fun op => creates op = some m) =
      ops.any fun op => creates op = some m := by
  induction ops generalizing known with
  | nil => rfl
  | cons op ops ih => rw [gather, List.any_append, any_creates_atOnce, ih, List.any_cons]

/-- Where the operations that may wait need nothing, it does not matter that they do. -/
lemma preceded_applyOrder {knows : MemoryId → Bool}
    (hneed : ∀ m' op, updatesState m' op = true → need op = false)
    (hbatch : ∀ deltas, need (.updateStateBatch deltas) = false) :
    Preceded m need known (applyOrder knows ops) ↔ Preceded m need known ops := by
  have hdelta : ∀ d, need (.updateState d) = false := fun d =>
    hneed d.memoryId _ (by simp [updatesState])
  have hlate : ∀ known, Preceded m need known
      ((gather lateDeltas knows ops).map Op.updateState ++
        (gather lateAccesses knows ops).map fun d => Op.updateStateBatch [d]) := by
    refine fun known => preceded_of_idle fun op hop => ?_
    rcases List.mem_append.mp hop with hop | hop
    · obtain ⟨d, -, rfl⟩ := List.mem_map.mp hop
      exact hdelta d
    · obtain ⟨d, -, rfl⟩ := List.mem_map.mp hop
      exact hbatch [d]
  have hone : ∀ (knows : MemoryId → Bool) (op : Op F) (known : Bool),
      Preceded m need known (atOnce knows op) ↔ (need op = true → known = true) := by
    intro knows op known
    cases op with
    | updateStateBatch deltas =>
      refine iff_of_true (preceded_of_idle fun op hop => ?_) (by simp [hbatch])
      obtain ⟨d, -, rfl⟩ := List.mem_map.mp hop
      exact hbatch [d]
    | updateState d => by_cases h : knows d.memoryId <;> simp [atOnce, h, Preceded, hdelta]
    | _ => simp [atOnce, Preceded]
  rw [applyOrder, preceded_append, and_iff_left (hlate _)]
  clear hlate
  induction ops generalizing knows known with
  | nil => rfl
  | cons op ops ih =>
    rw [gather, preceded_append, hone, any_creates_atOnce]
    exact and_congr_right fun _ => ih

/-- The operations that wait come behind the creation, if there is one. -/
lemma preceded_updatesState {knows : MemoryId → Bool} (h : ∃ op ∈ ops, creates op = some m) :
    Preceded m (updatesState m) (knows m) (applyOrder knows ops) := by
  rw [applyOrder, preceded_append, any_creates_gather]
  have hany : (ops.any fun op => creates op = some m) = true := by simpa using h
  rw [hany, Bool.or_true]
  refine ⟨?_, preceded_of_known⟩
  clear h hany
  induction ops generalizing knows with
  | nil => trivial
  | cons op ops ih =>
    rw [gather, preceded_append, any_creates_atOnce]
    refine ⟨?_, @ih (learn knows op)⟩
    cases op with
    | updateStateBatch deltas =>
      have hall : ∀ l : List (StateDeltaOp F), (∀ d ∈ l, knows d.memoryId = true) →
          Preceded m (updatesState m) (knows m) (l.map fun d => .updateStateBatch [d]) := by
        intro l hl
        induction l with
        | nil => trivial
        | cons d l ihl =>
          have hrest := ihl (List.forall_mem_cons.mp hl).2
          refine ⟨fun hd => ?_, by simpa [creates] using hrest⟩
          have hm : d.memoryId = m := by simpa [updatesState] using hd
          exact hm ▸ hl d List.mem_cons_self
      exact hall _ fun d hd => (List.mem_filter.mp hd).2
    | updateState d =>
      by_cases hd : knows d.memoryId
      · rw [atOnce, if_pos hd]
        refine ⟨fun hm => ?_, trivial⟩
        have hm : d.memoryId = m := by simpa [updatesState] using hm
        exact hm ▸ hd
      · rw [atOnce, if_neg hd]
        trivial
    | _ => exact ⟨nofun, trivial⟩

end

/-! ## What an operation does to a memory -/

section

variable {m : MemoryId}

/-- Only the explicit updates of a memory move its fence. -/
lemma fence_changed {op : Op F} (h : ∀ d, op = .updateState d → d.memoryId ≠ m) (st : MemoryState F) :
    (changed m op st).lastStateOpTsMs = st.lastStateOpTsMs := by
  cases op with
  | updateStateBatch | recordRecallBatch =>
    refine foldl_keeps (P := fun s : MemoryState F => s.lastStateOpTsMs = st.lastStateOpTsMs)
      (fun _ _ h => ?_) _ rfl
    exact h
  | updateState d => exact congrArg _ (if_neg (h d rfl))
  | recordOutcome r =>
    simp only [changed, MemoryState.recordOutcome]
    split_ifs <;> rfl
  | putPayload | deleteMemory | demoteMemory | updateMemoryContent =>
    simp only [changed]
    split_ifs <;> rfl
  | _ => rfl

lemma fence_applyOp {op : Op F} (h : ∀ d, op = .updateState d → d.memoryId ≠ m)
    (ctx : ApplyCtx F) : fence (applyOp op ctx) m = fence ctx m := by
  have hfence : (fun st => (changed m op st).lastStateOpTsMs) = MemoryState.lastStateOpTsMs :=
    funext (fence_changed h)
  rw [fence, states_applyOp, Option.map_map, Function.comp_def, hfence, fence]
  cases ctx.states m with
  | some st => rfl
  | none =>
    cases op with
    | putPayload put =>
      simp only [created, Option.none_or]
      split_ifs <;> rfl
    | _ => rfl

variable {ctx : ApplyCtx F}

/-- An explicit update that takes effect moves the fence to its time, if it has one. -/
lemma fence_updateState {d : StateDeltaOp F} (hm : d.memoryId = m)
    (h : takesEffect m ctx (.updateState d) = true) : fence (applyOp (.updateState d) ctx) m =
      if 0 < d.opTsMs then d.opTsMs else fence ctx m := by
  subst hm
  cases hs : ctx.states d.memoryId with
  | none => simp [takesEffect, hs] at h
  | some s =>
    simp only [takesEffect, hs, Option.any_some, ne_eq, not_true_eq_false, decide_false,
      Bool.false_or, Bool.not_eq_true', Bool.and_eq_false_iff, decide_eq_false_iff_not] at h
    have hpass : ¬ (0 < d.opTsMs ∧ d.opTsMs ≤ s.lastStateOpTsMs) := by tauto
    simp [fence, applyOp, ApplyCtx.modifyState, hs, MemoryState.applyDelta, hpass]

omit [F32 F] in
/-- An explicit update takes effect on a memory that is there if the fence lets it pass. -/
lemma takesEffect_updateState {d : StateDeltaOp F} (hm : d.memoryId = m) :
    takesEffect m ctx (.updateState d) = true ↔
      ctx.knows m = true ∧ (0 < d.opTsMs → fence ctx m < d.opTsMs) := by
  subst hm
  cases hs : ctx.states d.memoryId with
  | none => simp [takesEffect, hs, ApplyCtx.knows]
  | some s =>
    simp only [takesEffect, hs, ApplyCtx.knows, fence]
    simp [imp_iff_not_or]

omit [F32 F] in
/-- Every operation but an explicit update takes effect on what is there. -/
lemma takesEffect_iff {op : Op F} (h : ∀ d, op = .updateState d → d.memoryId ≠ m) :
    takesEffect m ctx op = true ↔
      (needsState m op = true → ctx.knows m = true) ∧
        (updatesState m op = true → ctx.knows m = true) ∧
          (needsPayload m op = true → (ctx.payloads m).isSome = true) := by
  cases op with
  | updateState d => simp [takesEffect, needsState, updatesState, needsPayload, h d rfl]
  | updateStateBatch deltas =>
    simp only [takesEffect, needsState, updatesState, needsPayload, ApplyCtx.knows,
      List.all_eq_true, List.any_eq_true]
    constructor
    · intro hall
      refine ⟨nofun, fun ⟨d, hd, hm⟩ => ?_, nofun⟩
      simpa [of_decide_eq_true hm] using hall d hd
    · rintro ⟨-, hany, -⟩ d hd
      by_cases hm : d.memoryId = m
      · simp [hany ⟨d, hd, decide_eq_true hm⟩]
      · simp [hm]
  | deleteMemory d =>
    simp only [takesEffect, needsState, updatesState, needsPayload, ApplyCtx.knows]
    by_cases hm : d.memoryId = m <;> simp [hm]
  | demoteMemory d =>
    simp only [takesEffect, needsState, updatesState, needsPayload, ApplyCtx.knows]
    by_cases hm : d.memoryId = m <;> simp [hm]
  | recordOutcome r =>
    simp only [takesEffect, needsState, updatesState, needsPayload, ApplyCtx.knows]
    by_cases hm : r.memoryId = m <;> simp [hm]
  | updateMemoryContent u =>
    simp only [takesEffect, needsState, updatesState, needsPayload]
    by_cases hm : u.memoryId = m <;> simp [hm]
  | updateMemoryKind u =>
    simp only [takesEffect, needsState, updatesState, needsPayload]
    by_cases hm : u.memoryId = m <;> simp [hm]
  | _ => simp [takesEffect, needsState, updatesState, needsPayload]

/-- An operation adds the payload of the memory that it creates, and no other. -/
lemma isSome_payloads_applyOp (op : Op F) (ctx : ApplyCtx F) :
    ((applyOp op ctx).payloads m).isSome = ((ctx.payloads m).isSome || creates op = some m) := by
  rw [payloads_applyOp, Option.isSome_or, Option.isSome_map, Bool.or_comm]
  cases op with
  | putPayload put => by_cases h : put.memoryId = m <;> simp [stored, creates, h]
  | _ => rfl

/-- A time that passes the fence becomes the fence. -/
lemma pairwise_passed {t t' : ℤ} {ts : List ℤ} (h : 0 < t' → t < t') :
    (t :: t' :: ts).Pairwise (fun t t' => 0 < t' → t < t') ↔
      ((if 0 < t' then t' else t) :: ts).Pairwise fun t t' => 0 < t' → t < t' := by
  simp only [List.pairwise_cons, List.mem_cons, forall_eq_or_imp]
  split
  · rename_i hpos
    constructor
    · exact fun ⟨_, hts, hrest⟩ => ⟨hts, hrest⟩
    · exact fun ⟨hts, hrest⟩ => ⟨⟨h, fun a ha hapos => (h hpos).trans (hts a ha hapos)⟩, hts, hrest⟩
  · rename_i hpos
    constructor
    · exact fun ⟨⟨_, hts⟩, _, hrest⟩ => ⟨hts, hrest⟩
    · exact fun ⟨hts, hrest⟩ =>
        ⟨⟨h, hts⟩, fun a _ hapos => (not_lt.mp hpos).trans_lt hapos, hrest⟩

/-- Each operation takes effect where what it needs has been created and the explicit updates come
in the order of their times. -/
lemma eachTakesEffect_iff :
    eachTakesEffect m ctx ops = true ↔
      (Preceded m (needsState m) (ctx.knows m) ops ∧
        Preceded m (updatesState m) (ctx.knows m) ops) ∧
      Preceded m (needsPayload m) (ctx.payloads m).isSome ops ∧
      (fence ctx m :: updateTimes m ops).Pairwise fun t t' => 0 < t' → t < t' := by
  induction ops generalizing ctx with
  | nil => simp [eachTakesEffect, Preceded, updateTimes]
  | cons op ops ih =>
    rw [eachTakesEffect, Bool.and_eq_true, ih, knows_applyOp, isSome_payloads_applyOp]
    simp only [Preceded]
    by_cases hop : ∃ d, op = .updateState d ∧ d.memoryId = m
    · obtain ⟨d, rfl, hm⟩ := hop
      have htimes : updateTimes m (.updateState d :: ops) = d.opTsMs :: updateTimes m ops := by
        simp [updateTimes, hm]
      by_cases heff : takesEffect m ctx (.updateState d) = true
      · have hpass := (takesEffect_updateState hm).mp heff
        rw [fence_updateState hm heff, htimes, pairwise_passed hpass.2]
        simp [heff, hpass.1, needsState, needsPayload, learn, creates]
      · have hfenced := mt (takesEffect_updateState hm).mpr heff
        rw [htimes]
        refine iff_of_false (fun h => heff h.1) fun h => hfenced ⟨?_, ?_⟩
        · exact h.1.2.1 (decide_eq_true hm)
        · exact (List.pairwise_cons.mp h.2.2).1 _ List.mem_cons_self
    · have hop : ∀ d, op = .updateState d → d.memoryId ≠ m := fun d hd hm => hop ⟨d, hd, hm⟩
      have htimes : updateTimes m (op :: ops) = updateTimes m ops :=
        List.filterMap_cons_none (by cases op <;> simp_all)
      rw [takesEffect_iff hop, fence_applyOp hop, htimes]
      constructor
      · rintro ⟨⟨hst, hup, hpl⟩, ⟨hst', hup'⟩, hpl', hnewer⟩
        exact ⟨⟨⟨hst, hst'⟩, hup, hup'⟩, ⟨hpl, hpl'⟩, hnewer⟩
      · rintro ⟨⟨⟨hst, hst'⟩, hup, hup'⟩, ⟨hpl, hpl'⟩, hnewer⟩
        exact ⟨⟨hst, hup, hpl⟩, ⟨hst', hup'⟩, hpl', hnewer⟩

end

/-! ## Clock skew -/

/-- Replay of operations among which is the creation of a memory loses nothing that is said of it,
just if they are in order. -/
theorem replay_loses_nothing_iff (s : LoadedSnapshots) (ctx : ApplyCtx F)
    (recs : List (InstanceId × ℕ × Op F)) (m : MemoryId)
    (hput : ∃ op ∈ s.passed (mergeOrder recs), creates op = some m) :
    LosesNothing s ctx (mergeOrder recs) m ↔ InOrder ctx m (s.passed (mergeOrder recs)) := by
  have hstate : Preceded m (needsState m) (ctx.knows m)
      (applyOrder ctx.knows (s.passed (mergeOrder recs))) ↔
        Preceded m (needsState m) (ctx.knows m) (s.passed (mergeOrder recs)) :=
    preceded_applyOrder (fun m' op h => by cases op <;> first | rfl | cases h) fun _ => rfl
  have hpayload : Preceded m (needsPayload m) (ctx.payloads m).isSome
      (applyOrder ctx.knows (s.passed (mergeOrder recs))) ↔
        Preceded m (needsPayload m) (ctx.payloads m).isSome (s.passed (mergeOrder recs)) :=
    preceded_applyOrder (fun m' op h => by cases op <;> first | rfl | cases h) fun _ => rfl
  have heach : eachTakesEffect m ctx (applyOrder ctx.knows (s.passed (mergeOrder recs))) = true ↔ _ :=
    eachTakesEffect_iff
  rw [hstate, hpayload, and_iff_left (preceded_updatesState hput)] at heach
  constructor
  · intro h
    obtain ⟨hst, hpl, hnewer⟩ := heach.mp h.effects
    exact ⟨hst, hpl, hnewer⟩
  · intro h
    refine ⟨heach.mpr ⟨h.state, h.payload, h.newer⟩, fun before d after hsplit hm hnone hbefore => ?_⟩
    have hprec := h.state
    rw [hsplit, hnone] at hprec
    obtain ⟨op, hop, hcreates⟩ := hprec.exists_creates (decide_eq_true hm)
    exact absurd hcreates (hbefore op hop)

/-- No snapshots. -/
def noSnapshots : LoadedSnapshots := ⟨0, 0, none, false⟩

/-- The creation of memory 7 at a time. -/
def sampleCreation (createdAtMs : ℤ) : Op ℚ :=
  .putPayload ⟨7, 0, [], createdAtMs, 0, "note", "home", [104, 105], "none", [], [], none, none, none,
    "", 0⟩

/-- A strengthening of memory 7 at a time. -/
def sampleUpdate (opTsMs : ℤ) : Op ℚ :=
  .updateState ⟨7, some (1 / 10), none, none, true, none, opTsMs, none, none, none, none⟩

/-- A deletion by a writer whose clock is behind that of the memory's creator. -/
def skewedDeletion : List (InstanceId × ℕ × Op ℚ) :=
  [(1, 1, .deleteMemory ⟨7, 5⟩), (2, 1, sampleCreation 10)]

/-- The deletion is lost: the memory is alive, with its content. -/
theorem skewed_deletion_lost :
    ¬ LosesNothing noSnapshots .empty (mergeOrder skewedDeletion) 7 ∧
      ((replayWal noSnapshots .empty (mergeOrder skewedDeletion)).states 7).map (·.deleted) =
        some false ∧
      ((replayWal noSnapshots .empty (mergeOrder skewedDeletion)).payloads 7).map (·.content) =
        some [104, 105] := by
  refine ⟨fun h => ?_, by decide +kernel, by decide +kernel⟩
  have heffects := h.effects
  revert heffects
  decide +kernel

/-- An update that waits and a deletion behind the creation are not lost. -/
theorem skewed_update_kept :
    LosesNothing noSnapshots .empty
      (mergeOrder [(1, 1, sampleUpdate 5), (1, 2, .deleteMemory ⟨7, 12⟩), (2, 1, sampleCreation 10)])
      7 := by
  have hpassed : noSnapshots.passed (mergeOrder [(1, 1, sampleUpdate 5),
      (1, 2, .deleteMemory ⟨7, 12⟩), (2, 1, sampleCreation 10)]) =
        [sampleUpdate 5, sampleCreation 10, .deleteMemory ⟨7, 12⟩] := by rfl
  refine (replay_loses_nothing_iff _ _ _ _ ⟨sampleCreation 10, ?_, rfl⟩).mpr ?_
  · simp [hpassed]
  · rw [hpassed]
    exact ⟨by simp [Preceded, needsState, sampleUpdate, sampleCreation, creates],
      by simp [Preceded, needsPayload, sampleUpdate, sampleCreation, creates], by decide +kernel⟩

end ChittaField
