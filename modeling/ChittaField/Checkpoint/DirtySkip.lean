import ChittaField.Checkpoint.Sidecar
import ChittaField.Memory.Lifecycle

/-!
# Skipping the payload sidecar

A save leaves the sidecar as it is when no content has changed since it was written.  It compares two
values of one counter, which the writers of contents step.  The counter is read before the payloads
are cloned and stepped behind a change, so that a change can come between: it is in the clone, and the
save skips the sidecar all the same.

`dirty_skip_keeps_contents` says when no content is lost.
-/

namespace ChittaField

variable {F : Type}

/-! ## The steps -/

/-- A call of `put_memory` between the insertion of its payload and that of its state. -/
structure Putting (F : Type) where
  put : PutPayloadOp F
  /-- Which change of content it was. -/
  change : ℕ
  counted : Bool

/-- How far a save has come: it has read the counter; it has cloned the payloads, after some number of
changes of content; or it is done with the sidecar and writes the body of the clone. -/
inductive PldSave (F : Type) where
  | idle
  | counted (mutations : ℕ)
  | cloned (mutations : ℕ) (clone : PayloadMap F) (changes : ℕ)
  | stripped (clone : PayloadMap F)

/-- A field with any number of writers and a save.  `changes` and `written` are not in the source:
they count the changes of content, all and those that were made before the clone in the sidecar. -/
structure PldStore (F : Type) where
  ctx : ApplyCtx F
  pldMutations : ℕ
  /-- Nothing before the first write. -/
  pldSavedAt : Option ℕ
  pldFile : Option Bytes
  snapshotFile : Option (PayloadMap F)
  putting : List (Putting F)
  /-- The change of a writer that has yet to step the counter, and holds the lock of the payloads. -/
  holder : Option ℕ
  /-- The memories that are marked as deleted and have yet to lose their content. -/
  forgetting : List MemoryId
  save : PldSave F
  changes : ℕ
  written : ℕ

/-- An atomic step of a writer or of the save. -/
inductive PldEvent (F : Type) where
  | insertPayload (put : PutPayloadOp F)
  | countPut (id : MemoryId)
  | insertState (id : MemoryId) (confidence decayRate : F) (embedPending : Bool)
  | updateContent (id : MemoryId) (content : Bytes) (embedding : List F)
  | applyForeign (ops : List (Op F))
  | countAndRelease
  | markDeleted (id : MemoryId)
  | clearContent (id : MemoryId)
  | readCounter
  | clonePayloads (order : List MemoryId) (embedded : MemoryId → Bool)
  | writeSidecar
  | commitBody
  | abort

namespace PldStore

/-- A field that has just been opened. -/
def opened (ctx : ApplyCtx F) (pldFile : Option Bytes) (snapshotFile : Option (PayloadMap F)) :
    PldStore F where
  ctx := ctx
  pldMutations := 0
  pldSavedAt := none
  pldFile := pldFile
  snapshotFile := snapshotFile
  putting := []
  holder := none
  forgetting := []
  save := .idle
  changes := 0
  written := 0

/-- Insert the payload of a new memory.  The vector goes to the semantic index. -/
def insertPayload (s : PldStore F) (put : PutPayloadOp F) : PldStore F :=
  { s with
    ctx := { s.ctx with
      payloads := Function.update s.ctx.payloads put.memoryId
        (some { MemoryPayload.ofPut put with embedding := [] }) }
    putting := s.putting ++ [⟨put, s.changes + 1, false⟩]
    changes := s.changes + 1 }

/-- Step the counter for a new memory. -/
def countPut (s : PldStore F) (id : MemoryId) : PldStore F :=
  { s with
    pldMutations := s.pldMutations + 1
    putting := s.putting.map fun p => if p.put.memoryId = id then { p with counted := true } else p }

/-- Insert the state of a new memory. -/
def insertState [F32 F] (s : PldStore F) (id : MemoryId) (confidence decayRate : F)
    (embedPending : Bool) : PldStore F :=
  match s.putting.find? fun p => p.put.memoryId = id with
  | none => s
  | some p =>
    { s with
      ctx := { s.ctx with
        states := Function.update s.ctx.states id
          (some { MemoryState.new id p.put.chunkHash p.put.createdAtMs with
            confidence := confidence
            decayRate := decayRate
            embedPending := embedPending }) }
      putting := s.putting.filter fun p => p.put.memoryId ≠ id }

/-- Set the content of a memory, if there is one, under the lock of the payloads. -/
def updateContent (s : PldStore F) (id : MemoryId) (content : Bytes) (embedding : List F) :
    PldStore F :=
  match s.ctx.payloads id with
  | none => s
  | some _ =>
    { s with
      ctx := s.ctx.modifyPayload id fun p =>
        { p with
          content := content
          embedding := if embedding.isEmpty then p.embedding else [] }
      holder := some (s.changes + 1)
      changes := s.changes + 1 }

/-- Apply operations of peers under the lock of the payloads. -/
def applyForeign [F32 F] (s : PldStore F) (ops : List (Op F)) : PldStore F :=
  { s with
    ctx := ops.foldl (fun ctx op => applyOp op ctx) s.ctx
    holder := some (s.changes + 1)
    changes := s.changes + 1 }

/-- Step the counter, and give up the lock. -/
def countAndRelease (s : PldStore F) : PldStore F :=
  { s with pldMutations := s.pldMutations + 1, holder := none }

/-- Mark a memory as deleted. -/
def markDeleted (s : PldStore F) (id : MemoryId) : PldStore F :=
  { s with
    ctx := s.ctx.modifyState id ({ · with deleted := true })
    forgetting := s.forgetting ++ [id] }

/-- Drop the content of a deleted memory. -/
def clearContent (s : PldStore F) (id : MemoryId) : PldStore F :=
  { s with
    ctx := s.ctx.modifyPayload id ({ · with content := [] })
    forgetting := s.forgetting.erase id }

/-- Read the counter. -/
def readCounter (s : PldStore F) : PldStore F := { s with save := .counted s.pldMutations }

/-- The payload that goes into a snapshot, without a vector that the index has. -/
def clonePayload (embedded : Bool) (p : MemoryPayload F) : MemoryPayload F :=
  if embedded then { p with embedding := [] } else p

/-- The payloads in an order, as they go into a snapshot. -/
def cloneOf (ctx : ApplyCtx F) (order : List MemoryId) (embedded : MemoryId → Bool) :
    PayloadMap F :=
  order.filterMap fun id => (ctx.payloads id).map fun p => (id, clonePayload (embedded id) p)

/-- Clone the payloads in the order in which the map is walked. -/
def clonePayloads (s : PldStore F) (order : List MemoryId) (embedded : MemoryId → Bool) :
    PldStore F :=
  match s.save with
  | .counted mutations =>
    { s with save := .cloned mutations (cloneOf s.ctx order embedded) s.changes }
  | _ => s

/-- The counter is as it was at the last write, and the file looks intact. -/
def pldClean (s : PldStore F) (mutations : ℕ) : Bool :=
  s.pldSavedAt = some mutations && s.pldFile.any fun bytes => 16 ≤ bytes.length

/-- Write the sidecar, or skip it. -/
def writeSidecar (s : PldStore F) : PldStore F :=
  match s.save with
  | .cloned mutations clone changes =>
    if s.pldClean mutations then { s with save := .stripped clone }
    else
      { s with
        pldFile := some (savePayloadSidecar clone)
        pldSavedAt := some mutations
        written := changes
        save := .stripped clone }
  | _ => s

/-- Write the body of the clone without its contents, and commit. -/
def commitBody (s : PldStore F) : PldStore F :=
  match s.save with
  | .stripped clone => { s with snapshotFile := some (stripContents clone), save := .idle }
  | _ => s

/-- Give up a save that could not write. -/
def abort (s : PldStore F) : PldStore F := { s with save := .idle }

def step [F32 F] (s : PldStore F) : PldEvent F → PldStore F
  | .insertPayload put => s.insertPayload put
  | .countPut id => s.countPut id
  | .insertState id confidence decayRate embedPending =>
    s.insertState id confidence decayRate embedPending
  | .updateContent id content embedding => s.updateContent id content embedding
  | .applyForeign ops => s.applyForeign ops
  | .countAndRelease => s.countAndRelease
  | .markDeleted id => s.markDeleted id
  | .clearContent id => s.clearContent id
  | .readCounter => s.readCounter
  | .clonePayloads order embedded => s.clonePayloads order embedded
  | .writeSidecar => s.writeSidecar
  | .commitBody => s.commitBody
  | .abort => s.abort

def run [F32 F] (s : PldStore F) (events : List (PldEvent F)) : PldStore F := events.foldl step s

/-- A memory that is not deleted. -/
def Live (ctx : ApplyCtx F) (id : MemoryId) : Prop :=
  (ctx.payloads id).isSome ∧ ∀ st, ctx.states id = some st → st.deleted = false

/-- An order in which the payloads that are not deleted are walked; ids are 64-bit. -/
structure Walks (ctx : ApplyCtx F) (order : List MemoryId) : Prop where
  nodup : order.Nodup
  length_lt : order.length < 2 ^ 64
  mem : ∀ id, id ∈ order ↔ id < 2 ^ 64 ∧ Live ctx id

/-- The steps that can be next: a new memory has an id that is in no use, the lock is free for those
that take it, and every writer and the save go through their own steps in order. -/
def Possible (s : PldStore F) : PldEvent F → Prop
  | .insertPayload put => s.holder = none ∧ s.ctx.payloads put.memoryId = none ∧
      s.ctx.states put.memoryId = none ∧ ∀ p ∈ s.putting, p.put.memoryId ≠ put.memoryId
  | .countPut id => ∃ p ∈ s.putting, p.put.memoryId = id ∧ p.counted = false
  | .insertState id _ _ _ => ∃ p ∈ s.putting, p.put.memoryId = id ∧ p.counted = true
  | .updateContent _ _ _ => s.holder = none
  | .applyForeign ops => s.holder = none ∧ ops ≠ [] ∧
      ∀ op ∈ ops, ∀ put, op = .putPayload put → ∀ p ∈ s.putting, p.put.memoryId ≠ put.memoryId
  | .countAndRelease => s.holder ≠ none
  | .markDeleted id => s.ctx.states id ≠ none
  | .clearContent id => id ∈ s.forgetting ∧ s.holder = none
  | .readCounter => s.save = .idle
  | .clonePayloads order _ => s.holder = none ∧ (∃ mutations, s.save = .counted mutations) ∧
      Walks s.ctx order
  | .writeSidecar => ∃ mutations clone changes, s.save = .cloned mutations clone changes
  | .commitBody => ∃ clone, s.save = .stripped clone
  | .abort => s.save ≠ .idle

/-- A save that finds the counter as it was at the last write does so when every change since is
counted, and no content changes until it has cloned the payloads.  A length fits its 32 bits. -/
def Counted (s : PldStore F) : PldEvent F → Prop
  | .readCounter => s.pldSavedAt = some s.pldMutations →
      s.holder = none ∧ ∀ p ∈ s.putting, p.counted = false → p.change ≤ s.written
  | .insertPayload _ | .updateContent _ _ _ | .applyForeign _ =>
      ∀ mutations, s.save = .counted mutations → s.pldSavedAt ≠ some mutations
  | .clonePayloads _ _ => ∀ id p, Live s.ctx id → s.ctx.payloads id = some p →
      p.content.length < 2 ^ 32
  | _ => True

/-- Every step of a run meets a condition. -/
def EachStep [F32 F] (P : PldStore F → PldEvent F → Prop) :
    PldStore F → List (PldEvent F) → Prop
  | _, [] => True
  | s, e :: es => P s e ∧ EachStep P (s.step e) es

/-- What the files give back is a clone. -/
def Restores (s : PldStore F) (clone : PayloadMap F) : Prop :=
  ∃ body, s.snapshotFile = some body ∧ loadPayloadSidecar s.pldFile body = (clone, true)

/-! ## Contents that a sidecar has -/

/-- Every memory that is not deleted has its content among some payloads. -/
def Agrees (ctx : ApplyCtx F) (saved : PayloadMap F) : Prop :=
  ∀ id p, id < 2 ^ 64 → Live ctx id → ctx.payloads id = some p →
    ∃ q, (id, q) ∈ saved ∧ q.content = p.content

/-- A change behind the first `n` is not counted yet. -/
def Uncounted (s : PldStore F) (n : ℕ) : Prop :=
  (∃ p ∈ s.putting, p.counted = false ∧ n < p.change) ∨ ∃ m, s.holder = some m ∧ n < m

/-- The writers that have been inside for long: a new memory has no state yet, and a memory that is
to lose its content is marked. -/
structure InFlight (s : PldStore F) : Prop where
  nodup : (s.putting.map (·.put.memoryId)).Nodup
  states_none : ∀ p ∈ s.putting, s.ctx.states p.put.memoryId = none
  forgotten : ∀ id ∈ s.forgetting, Forgotten s.ctx id

/-- What is known of payloads that were cloned after `n` changes, by a save that read the counter as
`mutations`: without a change since they are still good, and a change since shows in the counter, or
will when it is counted. -/
structure Tracks (s : PldStore F) (mutations n : ℕ) (saved : PayloadMap F) : Prop where
  mutations_le : mutations ≤ s.pldMutations
  n_le : n ≤ s.changes
  agrees : n = s.changes → Agrees s.ctx saved
  shows : n < s.changes → mutations < s.pldMutations ∨ s.Uncounted n

lemma content_clonePayload (embedded : Bool) (p : MemoryPayload F) :
    (clonePayload embedded p).content = p.content := by
  unfold clonePayload
  split <;> rfl

variable {order : List MemoryId} {ctx : ApplyCtx F} {id : MemoryId}

lemma mem_cloneOf {embedded : MemoryId → Bool} {q : MemoryPayload F} :
    (id, q) ∈ cloneOf ctx order embedded ↔
      id ∈ order ∧ ∃ p, ctx.payloads id = some p ∧ clonePayload (embedded id) p = q := by
  rw [cloneOf, List.mem_filterMap]
  constructor
  · rintro ⟨id', hid', h⟩
    obtain ⟨p, hp, heq⟩ := Option.map_eq_some_iff.mp h
    obtain ⟨rfl, rfl⟩ := Prod.mk.inj heq
    exact ⟨hid', p, hp, rfl⟩
  · rintro ⟨hid, p, hp, rfl⟩
    exact ⟨id, hid, by rw [hp]; rfl⟩

lemma map_fst_cloneOf (ctx : ApplyCtx F) (order : List MemoryId) (embedded : MemoryId → Bool) :
    ((cloneOf ctx order embedded).map Prod.fst).Sublist order := by
  induction order with
  | nil => exact .slnil
  | cons id order ih =>
    unfold cloneOf at ih ⊢
    cases hp : ctx.payloads id with
    | none =>
      rw [List.filterMap_cons_none (by rw [hp]; rfl)]
      exact ih.cons _
    | some p =>
      rw [List.filterMap_cons_some (by rw [hp]; rfl), List.map_cons]
      exact ih.cons_cons _

/-- A clone of the live payloads fits a sidecar when their contents do. -/
lemma fits_cloneOf (hw : Walks ctx order) (embedded : MemoryId → Bool)
    (hlen : ∀ id p, Live ctx id → ctx.payloads id = some p → p.content.length < 2 ^ 32) :
    (cloneOf ctx order embedded).Fits where
  nodup := hw.nodup.sublist (map_fst_cloneOf ctx order embedded)
  length_lt := by
    have hle := (map_fst_cloneOf ctx order embedded).length_le
    rw [List.length_map] at hle
    exact hle.trans_lt hw.length_lt
  id_lt e he := ((hw.mem e.1).mp (mem_cloneOf.mp he).1).1
  content_lt e he := by
    obtain ⟨horder, p, hp, hq⟩ := mem_cloneOf.mp he
    rw [← hq, content_clonePayload]
    exact hlen e.1 p ((hw.mem e.1).mp horder).2 hp

/-- A clone has every live content. -/
lemma agrees_cloneOf (hw : Walks ctx order) (embedded : MemoryId → Bool) :
    Agrees ctx (cloneOf ctx order embedded) := by
  intro id p hid hl hp
  exact ⟨_, mem_cloneOf.mpr ⟨(hw.mem id).mpr ⟨hid, hl⟩, p, hp, rfl⟩, content_clonePayload _ p⟩

variable {s : PldStore F} {e : PldEvent F}

variable {saved : PayloadMap F}

/-- Payloads that are good stay so when the memories that are not deleted keep their contents. -/
lemma Agrees.of {ctx ctx' : ApplyCtx F} (h : Agrees ctx saved)
    (hlive : ∀ id p', Live ctx' id → ctx'.payloads id = some p' →
      Live ctx id ∧ ∃ p, ctx.payloads id = some p ∧ p.content = p'.content) : Agrees ctx' saved := by
  intro id p' hid hl hp'
  obtain ⟨hl, p, hp, hcontent⟩ := hlive id p' hl hp'
  obtain ⟨q, hq, hq'⟩ := h id p hid hl hp
  exact ⟨q, hq, hq'.trans hcontent⟩

/-- A memory that is marked is not live. -/
lemma not_live_of_forgotten (h : Forgotten ctx id) : ¬Live ctx id := by
  obtain ⟨st, hst, hdel⟩ := h
  intro hl
  rw [hl.2 st hst] at hdel
  cases hdel

/-- Two calls inside have two ids. -/
lemma InFlight.eq_of_memoryId (h : s.InFlight) {p q : Putting F} (hp : p ∈ s.putting)
    (hq : q ∈ s.putting) (heq : p.put.memoryId = q.put.memoryId) : p = q :=
  List.inj_on_of_nodup_map h.nodup hp hq heq

/-- What the writers have, which the save leaves alone. -/
def writers (s : PldStore F) : ApplyCtx F × ℕ × List (Putting F) × Option ℕ × List MemoryId × ℕ :=
  (s.ctx, s.pldMutations, s.putting, s.holder, s.forgetting, s.changes)

lemma writers_clonePayloads (embedded : MemoryId → Bool) :
    (s.clonePayloads order embedded).writers = s.writers := by
  unfold clonePayloads
  split <;> rfl

lemma writers_writeSidecar : s.writeSidecar.writers = s.writers := by
  unfold writeSidecar
  split
  · split <;> rfl
  · rfl

lemma writers_commitBody : s.commitBody.writers = s.writers := by
  unfold commitBody
  split <;> rfl

variable {s' : PldStore F} {m n : ℕ}

lemma InFlight.of_writers (h : s.InFlight) (hw : s'.writers = s.writers) : s'.InFlight := by
  cases s
  cases s'
  cases hw
  exact ⟨h.nodup, h.states_none, h.forgotten⟩

lemma Tracks.of_writers (h : s.Tracks m n saved) (hw : s'.writers = s.writers) :
    s'.Tracks m n saved := by
  cases s
  cases s'
  cases hw
  exact ⟨h.mutations_le, h.n_le, h.agrees, h.shows⟩

/-- A change of content that is not counted yet shows when it is. -/
lemma Tracks.changed (h : s.Tracks m n saved) (hmut : s'.pldMutations = s.pldMutations)
    (hchanges : s'.changes = s.changes + 1) (hnew : ∀ n ≤ s.changes, s'.Uncounted n) :
    s'.Tracks m n saved where
  mutations_le := hmut ▸ h.mutations_le
  n_le := hchanges ▸ Nat.le_succ_of_le h.n_le
  agrees heq := absurd h.n_le (by omega)
  shows _ := .inr (hnew n h.n_le)

variable [F32 F]

lemma InFlight.step (h : s.InFlight) (hp : s.Possible e) : (s.step e).InFlight := by
  cases e with
  | insertPayload put =>
    obtain ⟨-, -, hnone, hfresh⟩ := hp
    refine ⟨?_, ?_, h.forgotten⟩
    · change ((s.putting ++ [_]).map _).Nodup
      rw [List.map_append, List.nodup_append]
      refine ⟨h.nodup, List.nodup_singleton _, ?_⟩
      rintro _ hmem _ hnew rfl
      obtain ⟨p, hp, hid⟩ := List.mem_map.mp hmem
      exact hfresh p hp (hid.trans (List.mem_singleton.mp hnew))
    · exact List.forall_mem_append.mpr ⟨h.states_none, List.forall_mem_singleton.mpr hnone⟩
  | countPut id =>
    refine ⟨?_, ?_, h.forgotten⟩
    · change ((s.putting.map _).map _).Nodup
      rw [List.map_map, List.map_congr_left (g := (·.put.memoryId))]
      · exact h.nodup
      · intro p _
        simp only [Function.comp_apply]
        split <;> rfl
    · intro p hmem
      obtain ⟨p', hp', rfl⟩ := List.mem_map.mp hmem
      have hstates := h.states_none p' hp'
      split
      · exact hstates
      · exact hstates
  | insertState id =>
    simp only [PldStore.step, insertState]
    cases hfind : s.putting.find? fun p => p.put.memoryId = id with
    | none => exact h
    | some p =>
      have hpid : p.put.memoryId = id := by simpa using List.find?_some hfind
      have hnone := h.states_none p (List.mem_of_find?_eq_some hfind)
      rw [hpid] at hnone
      refine ⟨?_, ?_, ?_⟩
      · exact h.nodup.sublist (List.Sublist.map _ List.filter_sublist)
      · intro q hmem
        obtain ⟨hmem, hne⟩ := List.mem_filter.mp hmem
        exact (Function.update_of_ne (of_decide_eq_true hne) _ _).trans (h.states_none q hmem)
      · intro id' hid'
        obtain ⟨st, hst, hdel⟩ := h.forgotten id' hid'
        have hne : id' ≠ id := by
          rintro rfl
          rw [hnone] at hst
          cases hst
        exact ⟨st, (Function.update_of_ne hne _ _).trans hst, hdel⟩
  | updateContent id =>
    simp only [PldStore.step, updateContent]
    cases s.ctx.payloads id with
    | none => exact h
    | some p => exact ⟨h.nodup, h.states_none, h.forgotten⟩
  | applyForeign ops =>
    obtain ⟨-, -, hops⟩ := hp
    refine ⟨h.nodup, fun p hmem => ?_, fun id hid => ?_⟩
    · exact states_foldl_applyOp_none
        (fun op hop put hput => (hops op hop put hput p hmem).symm) (h.states_none p hmem)
    · exact foldl_keeps (P := fun ctx : ApplyCtx F => Forgotten ctx id)
        (fun ctx op h => h.applyOp op) ops (h.forgotten id hid)
  | markDeleted id =>
    refine ⟨h.nodup, fun p hmem => ?_, fun id' hid' => ?_⟩
    · exact Maps.modifyAt_eq_none.mpr (h.states_none p hmem)
    · rcases List.mem_append.mp hid' with hid' | hid'
      · exact (h.forgotten id' hid').modifyState _ fun _ _ => rfl
      · rw [List.mem_singleton.mp hid']
        obtain ⟨st, hst⟩ := Option.ne_none_iff_exists'.mp hp
        exact ⟨{ st with deleted := true },
          Maps.modifyAt_self.trans (congrArg (Option.map _) hst), rfl⟩
  | clearContent id =>
    exact ⟨h.nodup, h.states_none, fun id' hid' => h.forgotten id' (List.mem_of_mem_erase hid')⟩
  | clonePayloads order embedded => exact h.of_writers (writers_clonePayloads embedded)
  | writeSidecar => exact h.of_writers writers_writeSidecar
  | commitBody => exact h.of_writers writers_commitBody
  | countAndRelease => exact ⟨h.nodup, h.states_none, h.forgotten⟩
  | readCounter => exact h.of_writers rfl
  | abort => exact h.of_writers rfl

/-- What is known of cloned payloads stays true whatever step comes next. -/
lemma Tracks.step (h : s.Tracks m n saved) (hs : s.InFlight) (hp : s.Possible e) :
    (s.step e).Tracks m n saved := by
  cases e with
  | insertPayload put =>
    exact h.changed rfl rfl fun n hn => .inl ⟨_, List.mem_concat_self, rfl, Nat.lt_succ_of_le hn⟩
  | countPut id =>
    exact ⟨Nat.le_succ_of_le h.mutations_le, h.n_le, h.agrees,
      fun _ => .inl (Nat.lt_succ_of_le h.mutations_le)⟩
  | insertState id =>
    simp only [PldStore.step, insertState]
    cases hfind : s.putting.find? fun p => p.put.memoryId = id with
    | none => exact h
    | some p =>
      obtain ⟨q, hq, hqid, hcounted⟩ := hp
      have hpid : p.put.memoryId = id := by simpa using List.find?_some hfind
      have hnone := hs.states_none p (List.mem_of_find?_eq_some hfind)
      rw [hpid] at hnone
      refine ⟨h.mutations_le, h.n_le, fun heq => (h.agrees heq).of fun id' p' hl hp' => ?_,
        fun hlt => ?_⟩
      · refine ⟨⟨hl.1, fun st hst => ?_⟩, p', hp', rfl⟩
        have hne : id' ≠ id := by
          rintro rfl
          rw [hnone] at hst
          cases hst
        exact hl.2 st ((Function.update_of_ne hne _ _).trans hst)
      · -- the call that gets its state is counted, so it is not the one that is awaited
        rcases h.shows hlt with hlt | ⟨r, hr, hrc, hlt⟩ | hholder
        · exact .inl hlt
        · refine .inr (.inl ⟨r, List.mem_filter.mpr ⟨hr, decide_eq_true fun hrid => ?_⟩, hrc, hlt⟩)
          rw [hs.eq_of_memoryId hr hq (hrid.trans hqid.symm), hcounted] at hrc
          cases hrc
        · exact .inr (.inr hholder)
  | updateContent id =>
    simp only [PldStore.step, updateContent]
    cases s.ctx.payloads id with
    | none => exact h
    | some p => exact h.changed rfl rfl fun n hn => .inr ⟨_, rfl, Nat.lt_succ_of_le hn⟩
  | applyForeign ops => exact h.changed rfl rfl fun n hn => .inr ⟨_, rfl, Nat.lt_succ_of_le hn⟩
  | countAndRelease =>
    exact ⟨Nat.le_succ_of_le h.mutations_le, h.n_le, h.agrees,
      fun _ => .inl (Nat.lt_succ_of_le h.mutations_le)⟩
  | markDeleted id =>
    refine ⟨h.mutations_le, h.n_le, fun heq => (h.agrees heq).of fun id' p' hl hp' => ?_, h.shows⟩
    refine ⟨⟨hl.1, fun st hst => ?_⟩, p', hp', rfl⟩
    by_cases hid : id' = id
    · subst hid
      exact absurd (hl.2 _ (Maps.modifyAt_self.trans (congrArg (Option.map _) hst)))
        Bool.true_eq_false.mp
    · exact hl.2 st ((Maps.modifyAt_of_ne hid).trans hst)
  | clearContent id =>
    refine ⟨h.mutations_le, h.n_le, fun heq => (h.agrees heq).of fun id' p' hl hp' => ?_, h.shows⟩
    have hne : id' ≠ id := by
      rintro rfl
      exact not_live_of_forgotten (hs.forgotten id' hp.1)
        ⟨(Maps.isSome_modifyAt).symm.trans hl.1, hl.2⟩
    have hsame : (s.ctx.modifyPayload id ({ · with content := [] })).payloads id' =
        s.ctx.payloads id' := Maps.modifyAt_of_ne hne
    exact ⟨⟨(congrArg Option.isSome hsame).symm.trans hl.1, hl.2⟩, p', hsame.symm.trans hp', rfl⟩
  | clonePayloads order embedded => exact h.of_writers (writers_clonePayloads embedded)
  | writeSidecar => exact h.of_writers writers_writeSidecar
  | commitBody => exact h.of_writers writers_commitBody
  | readCounter => exact h.of_writers rfl
  | abort => exact h.of_writers rfl

/-! ## Nothing is lost -/

/-- Every content of a clone is among some payloads. -/
def Covers (saved clone : PayloadMap F) : Prop :=
  ∀ e ∈ clone, ∃ q, (e.1, q) ∈ saved ∧ q.content = e.2.content

/-- What a save has found out, beside the payloads whose contents are in the sidecar. -/
def Saving (s : PldStore F) (saved : PayloadMap F) : PldSave F → Prop
  | .idle => True
  | .counted m => m ≤ s.pldMutations ∧ (s.pldSavedAt = some m → s.written = s.changes)
  | .cloned m clone n =>
    clone.Fits ∧ s.Tracks m n clone ∧ (s.pldSavedAt = some m → Covers saved clone)
  | .stripped clone => s.pldSavedAt ≠ none ∧ Covers saved clone

/-- The payloads whose contents are in the sidecar, and what a save may take from them. -/
structure Kept (s : PldStore F) (saved : PayloadMap F) : Prop where
  inFlight : s.InFlight
  file : ∀ m, s.pldSavedAt = some m →
    s.pldFile = some (savePayloadSidecar saved) ∧ saved.Fits ∧ s.Tracks m s.written saved
  saving : s.Saving saved s.save

/-- A step of a writer that leaves what a save has found out. -/
lemma Kept.of_writer (h : s.Kept saved) (hp : s.Possible e)
    (hsave : (s.step e).save = s.save) (hsaved : (s.step e).pldSavedAt = s.pldSavedAt)
    (hfile : (s.step e).pldFile = s.pldFile) (hwritten : (s.step e).written = s.written)
    (hmut : s.pldMutations ≤ (s.step e).pldMutations)
    (hchanges : ∀ m, s.save = .counted m → s.pldSavedAt = some m →
      (s.step e).changes = s.changes) : (s.step e).Kept saved where
  inFlight := h.inFlight.step hp
  file m hm := by
    obtain ⟨hf, hfits, htracks⟩ := h.file m (hsaved ▸ hm)
    rw [hfile, hwritten]
    exact ⟨hf, hfits, htracks.step h.inFlight hp⟩
  saving := by
    have hsaving := h.saving
    rw [hsave]
    cases hs : s.save with
    | idle => trivial
    | counted m =>
      rw [hs] at hsaving
      refine ⟨hsaving.1.trans hmut, fun hsm => ?_⟩
      rw [hsaved] at hsm
      rw [hwritten, hchanges m hs hsm]
      exact hsaving.2 hsm
    | cloned =>
      rw [hs] at hsaving
      obtain ⟨hfits, htracks, hcovers⟩ := hsaving
      exact ⟨hfits, htracks.step h.inFlight hp, fun hsm => hcovers (hsaved ▸ hsm)⟩
    | stripped clone =>
      rw [hs] at hsaving
      exact ⟨hsaved ▸ hsaving.1, hsaving.2⟩

omit [F32 F] in
/-- A step of the save that leaves the sidecar. -/
lemma Kept.of_save (h : s.Kept saved) (hw : s'.writers = s.writers)
    (hsaved : s'.pldSavedAt = s.pldSavedAt) (hfile : s'.pldFile = s.pldFile)
    (hwritten : s'.written = s.written) (hsaving : s'.Saving saved s'.save) : s'.Kept saved where
  inFlight := h.inFlight.of_writers hw
  file m hm := by
    obtain ⟨hf, hfits, htracks⟩ := h.file m (hsaved ▸ hm)
    rw [hfile, hwritten]
    exact ⟨hf, hfits, htracks.of_writers hw⟩
  saving := hsaving

omit [F32 F] in
/-- Payloads that are good cover a clone that is made now. -/
lemma Agrees.covers (h : Agrees ctx saved) (hw : Walks ctx order) (embedded : MemoryId → Bool) :
    Covers saved (cloneOf ctx order embedded) := by
  intro e he
  obtain ⟨horder, p, hp, hq⟩ := mem_cloneOf.mp he
  obtain ⟨hid, hl⟩ := (hw.mem e.1).mp horder
  obtain ⟨q, hmem, hcontent⟩ := h e.1 p hid hl hp
  exact ⟨q, hmem, by rw [hcontent, ← hq, content_clonePayload]⟩

/-- Every step keeps what is known, for the payloads that are in the sidecar then. -/
lemma Kept.step (h : s.Kept saved) (hp : s.Possible e) (hc : s.Counted e) :
    ∃ saved', (s.step e).Kept saved' := by
  have hcounted {P : Prop} (hc : ∀ m, s.save = .counted m → s.pldSavedAt ≠ some m) (m : ℕ)
      (hm : s.save = .counted m) (hsm : s.pldSavedAt = some m) : P := absurd hsm (hc m hm)
  cases e with
  | insertPayload put =>
    exact ⟨saved, h.of_writer hp rfl rfl rfl rfl (Nat.le_refl _) (hcounted hc)⟩
  | countPut id =>
    exact ⟨saved, h.of_writer hp rfl rfl rfl rfl (Nat.le_succ _) fun _ _ _ => rfl⟩
  | insertState =>
    refine ⟨saved, h.of_writer hp ?_ ?_ ?_ ?_ ?_ ?_⟩ <;>
      simp only [PldStore.step, insertState] <;> split <;> intros <;> rfl
  | updateContent =>
    refine ⟨saved, h.of_writer hp ?_ ?_ ?_ ?_ ?_ (hcounted hc)⟩ <;>
      simp only [PldStore.step, updateContent] <;> split <;> rfl
  | applyForeign ops =>
    exact ⟨saved, h.of_writer hp rfl rfl rfl rfl (Nat.le_refl _) (hcounted hc)⟩
  | countAndRelease =>
    exact ⟨saved, h.of_writer hp rfl rfl rfl rfl (Nat.le_succ _) fun _ _ _ => rfl⟩
  | markDeleted id =>
    exact ⟨saved, h.of_writer hp rfl rfl rfl rfl (Nat.le_refl _) fun _ _ _ => rfl⟩
  | clearContent id =>
    exact ⟨saved, h.of_writer hp rfl rfl rfl rfl (Nat.le_refl _) fun _ _ _ => rfl⟩
  | readCounter =>
    refine ⟨saved, h.of_save rfl rfl rfl rfl ⟨Nat.le_refl _, fun hsm => ?_⟩⟩
    obtain ⟨hholder, hput⟩ := hc hsm
    have htracks := (h.file _ hsm).2.2
    -- a change since the last write would show in the counter
    refine Nat.le_antisymm htracks.n_le (Nat.le_of_not_lt fun hlt => ?_)
    rcases htracks.shows hlt with hlt | ⟨p, hmem, hpc, hlt⟩ | ⟨m, hm, -⟩
    · exact absurd hlt (Nat.lt_irrefl _)
    · exact absurd (hput p hmem hpc) (Nat.not_le_of_lt hlt)
    · rw [hholder] at hm
      cases hm
  | clonePayloads order embedded =>
    obtain ⟨-, ⟨m, hm⟩, hw⟩ := hp
    have hstep : s.step (.clonePayloads order embedded) =
        { s with save := .cloned m (cloneOf s.ctx order embedded) s.changes } := by
      simp only [PldStore.step, clonePayloads, hm]
    rw [hstep]
    obtain ⟨hle, heq⟩ : s.Saving saved (.counted m) := hm ▸ h.saving
    refine ⟨saved, h.of_save rfl rfl rfl rfl ⟨fits_cloneOf hw embedded hc, ⟨hle, Nat.le_refl _,
      fun _ => agrees_cloneOf hw embedded, fun hlt => absurd hlt (Nat.lt_irrefl _)⟩, fun hsm => ?_⟩⟩
    exact ((h.file m hsm).2.2.agrees (heq hsm)).covers hw embedded
  | writeSidecar =>
    obtain ⟨m, clone, n, hm⟩ := hp
    obtain ⟨hfits, htracks, hcovers⟩ : s.Saving saved (.cloned m clone n) := hm ▸ h.saving
    cases hclean : s.pldClean m with
    | true =>
      have hstep : s.step .writeSidecar = { s with save := .stripped clone } := by
        simp only [PldStore.step, writeSidecar, hm, hclean, if_true]
      have hsm : s.pldSavedAt = some m :=
        of_decide_eq_true (Bool.and_eq_true_iff.mp hclean).1
      rw [hstep]
      exact ⟨saved, h.of_save rfl rfl rfl rfl ⟨by rw [hsm]; exact Option.some_ne_none m, hcovers hsm⟩⟩
    | false =>
      have hstep : s.step .writeSidecar =
          { s with
            pldFile := some (savePayloadSidecar clone)
            pldSavedAt := some m
            written := n
            save := .stripped clone } := by
        simp only [PldStore.step, writeSidecar, hm, hclean, Bool.false_eq_true, if_false]
      rw [hstep]
      refine ⟨clone, h.inFlight.of_writers rfl, fun m' hm' => ?_, Option.some_ne_none m,
        fun e he => ⟨e.2, he, rfl⟩⟩
      obtain rfl := Option.some.inj hm'
      exact ⟨rfl, hfits, htracks.of_writers rfl⟩
  | commitBody =>
    obtain ⟨clone, hm⟩ := hp
    have hstep : s.step .commitBody =
        { s with snapshotFile := some (stripContents clone), save := .idle } := by
      simp only [PldStore.step, commitBody, hm]
    rw [hstep]
    exact ⟨saved, h.of_save rfl rfl rfl rfl trivial⟩
  | abort => exact ⟨saved, h.of_save rfl rfl rfl rfl trivial⟩

omit [F32 F] in
lemma kept_opened (ctx : ApplyCtx F) (pldFile : Option Bytes)
    (snapshotFile : Option (PayloadMap F)) (saved : PayloadMap F) :
    (opened ctx pldFile snapshotFile).Kept saved where
  inFlight := ⟨List.nodup_nil, fun _ h => (nomatch h), fun _ h => (nomatch h)⟩
  file _ h := nomatch h
  saving := trivial

lemma Kept.run (h : s.Kept saved) {events : List (PldEvent F)}
    (hall : EachStep (fun s e => s.Possible e ∧ s.Counted e) s events) :
    ∃ saved', (s.run events).Kept saved' := by
  induction events generalizing s saved with
  | nil => exact ⟨saved, h⟩
  | cons e events ih =>
    obtain ⟨⟨hp, hc⟩, hall⟩ := hall
    obtain ⟨saved', h'⟩ := h.step hp hc
    exact ih h' hall

/-- **Skipping the sidecar loses no content** where every save that finds the counter as it was at
the last write finds all changes counted and none before its clone: whatever is committed is given
back by the files. -/
theorem dirty_skip_keeps_contents (ctx : ApplyCtx F) (pldFile : Option Bytes)
    (snapshotFile : Option (PayloadMap F)) (events : List (PldEvent F))
    (hall : EachStep (fun s e => s.Possible e ∧ s.Counted e) (opened ctx pldFile snapshotFile)
      events) (clone : PayloadMap F)
    (hsave : ((opened ctx pldFile snapshotFile).run events).save = .stripped clone) :
    (((opened ctx pldFile snapshotFile).run events).step .commitBody).Restores clone := by
  obtain ⟨saved, h⟩ := (kept_opened ctx pldFile snapshotFile []).run hall
  obtain ⟨hne, hcovers⟩ : Saving _ saved (.stripped clone) := hsave ▸ h.saving
  obtain ⟨m, hm⟩ := Option.ne_none_iff_exists'.mp hne
  obtain ⟨hfile, hfits, -⟩ := h.file m hm
  refine ⟨stripContents clone, ?_, ?_⟩
  · simp only [PldStore.step, commitBody, hsave]
  · simp only [PldStore.step, commitBody, hsave, hfile]
    exact loadPayloadSidecar_save hfits hcovers

/-! ### A racing put -/

/-- A new memory. -/
def samplePut (id : MemoryId) (content : Bytes) : PutPayloadOp ℚ :=
  ⟨id, 0, [], 1, 1, "episode", "r", content, "none", [], [], none, none, none, "", 0⟩

/-- A call of `put_memory` that nothing interrupts. -/
def samplePutMemory (id : MemoryId) (content : Bytes) : List (PldEvent ℚ) :=
  [.insertPayload (samplePut id content), .countPut id, .insertState id 1 0 false]

/-- A save up to its body. -/
def sampleSave (order : List MemoryId) : List (PldEvent ℚ) :=
  [.readCounter, .clonePayloads order fun _ => true, .writeSidecar]

/-- The field behind the first put. -/
def sampleField : PldStore ℚ := (opened .empty none none).run (samplePutMemory 1 [97])

/-- Where nothing is deleted, all payloads are walked. -/
lemma walks_of_payloads {ctx : ApplyCtx ℚ} (hnodup : order.Nodup) (hlength : order.length < 2 ^ 64)
    (hlt : ∀ id ∈ order, id < 2 ^ 64) (hp : ∀ id, id ∈ order ↔ (ctx.payloads id).isSome)
    (hs : ∀ id st, ctx.states id = some st → st.deleted = false) : Walks ctx order :=
  ⟨hnodup, hlength, fun id => ⟨fun h => ⟨hlt id h, (hp id).mp h, hs id⟩, fun h => (hp id).mpr h.2.1⟩⟩

lemma states_sampleField {st : MemoryState ℚ} (h : sampleField.ctx.states id = some st) :
    st.deleted = false := by
  change Function.update (fun _ => none) 1 (some _) id = some st at h
  by_cases h1 : id = 1
  · subst h1
    rw [Function.update_self] at h
    rw [← Option.some.inj h]
    rfl
  · rw [Function.update_of_ne h1] at h
    cases h

lemma walks_sampleField : Walks sampleField.ctx [1] := by
  refine walks_of_payloads (by decide) (by norm_num) (by norm_num) (fun id => ?_)
    fun id st h => states_sampleField h
  change _ ↔ (Function.update (fun _ => none) 1 (some _) id).isSome = true
  by_cases h1 : id = 1 <;> simp [h1]

lemma content_sampleField {p : MemoryPayload ℚ} (h : sampleField.ctx.payloads id = some p) :
    p.content.length < 2 ^ 32 := by
  change Function.update (fun _ => none) 1 (some _) id = some p at h
  by_cases h1 : id = 1
  · subst h1
    rw [Function.update_self] at h
    rw [← Option.some.inj h]
    norm_num [MemoryPayload.ofPut, samplePut]
  · rw [Function.update_of_ne h1] at h
    cases h

/-- Two saves, of which the second finds nothing new. -/
def sampleTwice : List (PldEvent ℚ) :=
  samplePutMemory 1 [97] ++ sampleSave [1] ++ [.commitBody] ++ sampleSave [1]

theorem dirty_skip_keeps_contents_sample :
    (((opened .empty none none).run sampleTwice).step .commitBody).Restores
      [(1, { MemoryPayload.ofPut (samplePut 1 [97]) with embedding := [] })] :=
  dirty_skip_keeps_contents .empty none none sampleTwice
    ⟨⟨⟨rfl, rfl, rfl, fun _ h => nomatch h⟩, fun _ h => nomatch h⟩,
      ⟨⟨_, List.mem_singleton_self _, rfl, rfl⟩, trivial⟩,
      ⟨⟨_, List.mem_singleton_self _, rfl, rfl⟩, trivial⟩, ⟨rfl, fun h => nomatch h⟩,
      ⟨⟨rfl, ⟨_, rfl⟩, walks_sampleField⟩, fun _ _ _ h => content_sampleField h⟩,
      ⟨⟨_, _, _, rfl⟩, trivial⟩, ⟨⟨_, rfl⟩, trivial⟩,
      ⟨rfl, fun _ => ⟨rfl, fun _ h => nomatch h⟩⟩,
      ⟨⟨rfl, ⟨_, rfl⟩, walks_sampleField⟩, fun _ _ _ h => content_sampleField h⟩,
      ⟨⟨_, _, _, rfl⟩, trivial⟩, trivial⟩ _ rfl

/-- A put that is between its insertion and its count when the second save reads the counter: the
save skips the sidecar, and the content of the put is in neither file. -/
theorem skip_forgets_content : ∃ (events : List (PldEvent ℚ)) (clone : PayloadMap ℚ),
    EachStep Possible (opened .empty none none) events ∧
    ((opened .empty none none).run events).save = .stripped clone ∧
    ¬(((opened .empty none none).run events).step .commitBody).Restores clone := by
  refine ⟨samplePutMemory 1 [97] ++ sampleSave [1] ++
    [.commitBody, .insertPayload (samplePut 2 [98])] ++ sampleSave [1, 2], _, ?_, rfl, ?_⟩
  · have hboth : Walks (sampleField.insertPayload (samplePut 2 [98])).ctx [1, 2] := by
      refine walks_of_payloads (by decide) (by norm_num) (by norm_num) (fun id => ?_)
        fun id st h => states_sampleField h
      change _ ↔ (Function.update (Function.update (fun _ => none) 1 (some _)) 2
        (some _) id).isSome = true
      by_cases h2 : id = 2
      · simp [h2]
      · by_cases h1 : id = 1 <;> simp [h1, h2]
    exact ⟨⟨rfl, rfl, rfl, fun _ h => nomatch h⟩, ⟨_, List.mem_singleton_self _, rfl, rfl⟩,
      ⟨_, List.mem_singleton_self _, rfl, rfl⟩, rfl, ⟨rfl, ⟨_, rfl⟩, walks_sampleField⟩,
      ⟨_, _, _, rfl⟩, ⟨_, rfl⟩, ⟨rfl, rfl, rfl, fun _ h => nomatch h⟩, rfl,
      ⟨rfl, ⟨_, rfl⟩, hboth⟩, ⟨_, _, _, rfl⟩, trivial⟩
  · rintro ⟨body, hbody, hload⟩
    obtain rfl := Option.some.inj hbody
    have hcontents := congrArg (fun r => r.1.map fun e => e.2.content) hload
    revert hcontents
    decide

end PldStore

end ChittaField
