import Mathlib.Algebra.BigOperators.Group.List.Basic
import Mathlib.Algebra.Group.Prod
import Mathlib.Algebra.Order.Ring.Rat
import Mathlib.Data.List.Induction
import ChittaField.Memory.Lifecycle

/-!
# What records count for a memory

The accesses of batches and recalls, outcomes and new edges add up, so that permuted records give the
same counts, posteriors and edges (`countAlike_of_perm`).  An explicit update is dropped when it comes
late, so that those which touch a memory are left out.
-/

namespace ChittaField

/-- What an operation counts for a memory: accesses, and the weights of successes and failures. -/
def tally (m : MemoryId) : Op ℚ → ℕ × ℚ × ℚ
  | .updateStateBatch deltas => (deltas.countP (·.memoryId = m), 0)
  | .recordRecallBatch b => (b.memoryIds.countP (· = m), 0)
  | .recordOutcome r =>
    if r.memoryId = m ∧ 0 < r.weight then
      (0, if r.success then (min r.weight 5, 0) else (0, min r.weight 5))
    else 0
  | _ => 0

/-- The count and the posterior of a memory. -/
def MemoryState.tally (st : MemoryState ℚ) : ℕ × ℚ × ℚ :=
  (st.accessCount, st.utilityAlpha, st.utilityBeta)

/-- No explicit update touches the memory. -/
def Untouched (m : MemoryId) (op : Op ℚ) : Prop :=
  ∀ d, op = .updateState d → d.memoryId = m → d.touch = false

/-- The memory is known, and has counted so much. -/
def Counts (ctx : ApplyCtx ℚ) (m : MemoryId) (t : ℕ × ℚ × ℚ) : Prop :=
  ∃ st, ctx.states m = some st ∧ st.tally = t

variable {ctx : ApplyCtx ℚ} {m : MemoryId} {t : ℕ × ℚ × ℚ}

/-- Accesses are counted one after the other. -/
lemma tally_foldl {α : Type} {f : MemoryState ℚ → α → MemoryState ℚ}
    (hf : ∀ st a, st.accessCount + 1 < 2 ^ 32 → (f st a).tally = st.tally + (1, 0)) (l : List α)
    {st : MemoryState ℚ} (hroom : st.accessCount + l.length < 2 ^ 32) :
    (l.foldl f st).tally = st.tally + (l.length, 0) := by
  induction l generalizing st with
  | nil => exact (add_zero _).symm
  | cons a l ih =>
    rw [List.length_cons] at hroom ⊢
    have hone := hf st a (by omega)
    have hcount : (f st a).accessCount = st.accessCount + 1 := congrArg Prod.fst hone
    rw [List.foldl_cons, ih (by omega), hone, add_assoc]
    exact congrArg (st.tally + ·) (Prod.ext (Nat.add_comm ..) (add_zero _))

lemma tally_changed {op : Op ℚ} {st : MemoryState ℚ} (hop : Untouched m op)
    (hroom : st.accessCount + (tally m op).1 < 2 ^ 32) :
    (changed m op st).tally = st.tally + tally m op := by
  have hzero : st.tally = st.tally + 0 := (add_zero _).symm
  cases op with
  | updateStateBatch deltas =>
    simp only [tally, List.countP_eq_length_filter] at hroom ⊢
    refine tally_foldl (fun st d hlt => ?_) _ hroom
    exact Prod.ext (Nat.min_eq_left (by omega)) (add_zero _).symm
  | recordRecallBatch b =>
    simp only [tally, List.countP_eq_length_filter] at hroom ⊢
    refine tally_foldl (fun st id hlt => ?_) _ hroom
    exact Prod.ext (Nat.mod_eq_of_lt hlt) (add_zero _).symm
  | updateState d =>
    refine Eq.trans ?_ hzero
    by_cases hid : d.memoryId = m
    · simp only [changed, hid, if_true, MemoryState.applyDelta]
      split
      · rfl
      · simp [MemoryState.tally, hop d rfl hid]
    · exact congrArg _ (if_neg hid)
  | recordOutcome r =>
    by_cases hid : r.memoryId = m
    · by_cases hpos : 0 < r.weight
      · cases hsuccess : r.success <;> simp [changed, MemoryState.recordOutcome, MemoryState.tally,
          F32.lt, F32.lit, F32.add, F32.min, tally, hid, hpos, hsuccess, min_def]
      · simp [changed, MemoryState.recordOutcome, F32.lt, F32.lit, tally, hid, hpos]
    · simp [changed, tally, hid]
  | putPayload | deleteMemory | demoteMemory | updateMemoryContent =>
    simp only [changed]
    split_ifs <;> exact hzero
  | _ => exact hzero

lemma Counts.applyOp (h : Counts ctx m t) {op : Op ℚ} (hop : Untouched m op)
    (hroom : t.1 + (tally m op).1 < 2 ^ 32) : Counts (applyOp op ctx) m (t + tally m op) := by
  obtain ⟨st, hst, rfl⟩ := h
  exact ⟨changed m op st, by rw [states_applyOp, hst]; rfl, tally_changed hop hroom⟩

lemma Counts.run (ops : List (Op ℚ)) (h : Counts ctx m t) (hops : ∀ op ∈ ops, Untouched m op)
    (hroom : t.1 + (ops.map (tally m)).sum.1 < 2 ^ 32) :
    Counts (ops.foldl (fun ctx op => ChittaField.applyOp op ctx) ctx) m (t + (ops.map (tally m)).sum) := by
  induction ops generalizing ctx t with
  | nil => exact (add_zero t).symm ▸ h
  | cons op ops ih =>
    obtain ⟨hop, hops⟩ := List.forall_mem_cons.mp hops
    rw [List.map_cons, List.sum_cons, Prod.fst_add] at hroom
    rw [List.map_cons, List.sum_cons, ← add_assoc]
    exact ih (h.applyOp hop (by omega)) hops (by rw [Prod.fst_add]; omega)

/-- What operations make of no memories. -/
def applied {F : Type} [F32 F] (ops : List (Op F)) : ApplyCtx F :=
  ops.foldl (fun ctx op => applyOp op ctx) .empty

/-- Nothing counts for the memory before it is put. -/
def Introduced (m : MemoryId) (ops : List (Op ℚ)) : Prop :=
  ∃ front put rest, ops = front ++ .putPayload put :: rest ∧ put.memoryId = m ∧
    ∀ op ∈ front, tally m op = 0 ∧ ∀ put, op = .putPayload put → put.memoryId ≠ m

lemma Introduced.counts {ops : List (Op ℚ)} (h : Introduced m ops) (hops : ∀ op ∈ ops, Untouched m op)
    (hroom : (ops.map (tally m)).sum.1 < 2 ^ 32) :
    Counts (applied ops) m ((0, 1, 1) + (ops.map (tally m)).sum) := by
  obtain ⟨front, put, rest, rfl, rfl, hfront⟩ := h
  have hzero : (front.map (tally put.memoryId)).sum = 0 :=
    List.sum_eq_zero (List.forall_mem_map.mpr fun op hop => (hfront op hop).1)
  have hnone : (applied front).states put.memoryId = none :=
    states_foldl_applyOp_none (fun op hop => (hfront op hop).2) rfl
  have hput : tally put.memoryId (.putPayload put) = 0 := rfl
  rw [List.map_append, List.sum_append, hzero, zero_add, List.map_cons, List.sum_cons, hput, zero_add]
    at hroom ⊢
  rw [applied, List.foldl_append, List.foldl_cons]
  refine Counts.run rest ⟨_, Function.update_self .., ?_⟩ (fun op hop => hops op (by simp [hop]))
    (by simpa using hroom)
  rw [applied] at hnone
  rw [hnone]
  rfl

/-- **Permuted records count the same**, for a memory that is put before it is used. -/
theorem tally_perm {ops ops' : List (Op ℚ)} (hperm : ops.Perm ops') (h : Introduced m ops)
    (h' : Introduced m ops') (hops : ∀ op ∈ ops, Untouched m op)
    (hroom : (ops.map (tally m)).sum.1 < 2 ^ 32) :
    ∃ t, Counts (applied ops) m t ∧ Counts (applied ops') m t := by
  have hsum := (hperm.map (tally m)).sum_eq
  refine ⟨_, h.counts hops hroom, ?_⟩
  rw [hsum] at hroom ⊢
  exact h'.counts (fun op hop => hops op (hperm.mem_iff.mpr hop)) hroom

/-! ## Edges -/

variable {F : Type}

/-- The edges that an operation adds to those of a memory, if it does nothing else to edges. -/
def newEdges (src : MemoryId) : Op F → Option (List (AssocEdge F))
  | .addAssocEdge e => some (if e.src = src then [⟨e.dst, e.edgeType, e.weight⟩] else [])
  | .deleteMemory _ | .strengthenAssocEdge _ | .recordRecallBatch _ => none
  | _ => some []

variable [F32 F] {ops ops' : List (Op F)} {src : MemoryId}

lemma edges_applied (hops : ∀ op ∈ ops, newEdges src op ≠ none) : ((applied ops).assocEdges src).getD [] =
    ops.flatMap fun op => (newEdges src op).getD [] := by
  induction ops using List.reverseRecOn with
  | nil => rfl
  | append_singleton ops op ih =>
    rw [applied, List.foldl_concat, List.flatMap_append, ← ih (fun op hop => hops op (by simp [hop]))]
    have hop := hops op (by simp)
    cases op with
    | addAssocEdge e =>
      by_cases hsrc : e.src = src
      · subst hsrc
        simp [applyOp, newEdges, applied]
      · simp [applyOp, newEdges, applied, hsrc, Ne.symm hsrc]
    | deleteMemory d => exact absurd rfl hop
    | strengthenAssocEdge e => exact absurd rfl hop
    | recordRecallBatch b => exact absurd rfl hop
    | updateStateBatch deltas =>
      have hkept : (deltas.foldl (fun ctx d => ctx.modifyState d.memoryId (·.applyAccessDelta d))
          (applied ops)).assocEdges = (applied ops).assocEdges := by
        refine foldl_keeps (P := fun c : ApplyCtx F => c.assocEdges = _) (fun _ _ h => ?_) deltas rfl
        exact h
      exact (congrArg (fun edges => (edges src).getD []) hkept).trans (List.append_nil _).symm
    | updateMemoryContent u =>
      rw [applyOp]
      split <;> exact (List.append_nil _).symm
    | _ => exact (List.append_nil _).symm

/-- Permuted records add the same edges. -/
theorem edges_perm (hperm : ops.Perm ops') (hops : ∀ op ∈ ops, newEdges src op ≠ none) :
    (((applied ops).assocEdges src).getD []).Perm (((applied ops').assocEdges src).getD []) := by
  rw [edges_applied hops, edges_applied fun op hop => hops op (hperm.mem_iff.mpr hop)]
  exact hperm.flatMap_right _

/-- Operations count the same for a memory that both put before it is used, and add the same edges to
one whose edges they only add to. -/
structure CountAlike (ops ops' : List (Op ℚ)) : Prop where
  counts : ∀ m, Introduced m ops → Introduced m ops' → (∀ op ∈ ops, Untouched m op) →
    (ops.map (tally m)).sum.1 < 2 ^ 32 → ∃ t, Counts (applied ops) m t ∧ Counts (applied ops') m t
  edges : ∀ src, (∀ op ∈ ops, newEdges src op ≠ none) →
    (((applied ops).assocEdges src).getD []).Perm (((applied ops').assocEdges src).getD [])

theorem countAlike_of_perm {ops ops' : List (Op ℚ)} (hperm : ops.Perm ops') : CountAlike ops ops' :=
  ⟨fun _ => tally_perm hperm, fun _ => edges_perm hperm⟩

end ChittaField
