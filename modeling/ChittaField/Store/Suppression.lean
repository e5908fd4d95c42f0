import ChittaField.Store.KeyedLanes

/-!
# Exact duplicates

A memory that is stored again is found by the hash of its kind, realm, content and embedding.  The
index of hashes keeps the first memory of each, a deletion leaves it as it is, and a start fills it
from the operations that it replays: what comes out of the snapshot is not in it.

`duplicates_suppressed` says when there is one live copy of everything: nothing is stored whose hash
the index has a dead memory for, and no start finds a live memory in its snapshot.
-/

namespace ChittaField

variable {F : Type}

/-- The store, with the memories of the latest snapshot and how much of the log it covers. -/
structure SavedStore (F : Type) extends LiveStore F where
  saved : ApplyCtx F
  covered : ℕ

namespace SavedStore

/-- A store without memories and without a snapshot. -/
def empty (firstId : MemoryId) : SavedStore F :=
  { LiveStore.empty firstId with
    saved := .empty
    covered := 0 }

/-- The operations that a start replays. -/
def uncovered (s : SavedStore F) : List (Op F) := s.wal.drop s.covered

/-- The memory that an operation stores. -/
def putOf : Op F → Option (PutPayloadOp F)
  | .putPayload put => some put
  | _ => none

/-- The index of hashes behind a replay, which starts from nothing. -/
def replayChunkHashIdx (ops : List (Op F)) : ChunkHash → Option MemoryId :=
  Lanes.first PutPayloadOp.memoryId (fun put => [put.chunkHash]) (ops.filterMap putOf)

/-- The index of what is done, from the live memories in the order in which they are walked. -/
def rebuildContentProvIdx (cfg : WriteConfig F) (s : LiveStore F)
    (walk : List (MemoryId × MemoryPayload F)) : ℕ → Option MemoryId :=
  Lanes.latest Prod.fst (fun r : MemoryId × MemoryPayload F => [cfg.contentHash r.2.content])
    (walk.filter fun r => r.2.kind == "signal" && startsWithBytes "[done]" r.2.content &&
      KeyedStore.notDeleted s r.1)

variable [F32 F]

/-- The memories that a start finds. -/
def recovered (s : SavedStore F) : ApplyCtx F := s.uncovered.foldl (fun ctx op => applyOp op ctx) s.saved

/-- Close the store and open it again; its first new memory will be `firstId`. -/
def reopen (cfg : WriteConfig F) (s : SavedStore F) (firstId : MemoryId)
    (walk : List (MemoryId × MemoryPayload F)) : SavedStore F :=
  let live : LiveStore F :=
    { ctx := s.recovered
      nextId := firstId
      chunkHashIdx := replayChunkHashIdx s.uncovered
      contentProvIdx := fun _ => none
      sessionRecent := fun _ => []
      wal := s.wal }
  { s with toLiveStore := { live with contentProvIdx := rebuildContentProvIdx cfg live walk } }

omit [F32 F] in
/-- Save a snapshot. -/
def saveFullSnapshot (s : SavedStore F) : SavedStore F :=
  { s with
    saved := s.ctx
    covered := s.wal.length }

/-- A call. -/
inductive Call (F : Type) where
  | putMemory (call : LiveStore.PutCall F) (env : LiveStore.PutEnv F)
  | forget (id : MemoryId) (env : LiveStore.ForgetEnv F)
  | saveFullSnapshot
  | reopen (firstId : MemoryId) (walk : List (MemoryId × MemoryPayload F))

/-- Make a call. -/
def step (cfg : WriteConfig F) (s : SavedStore F) : Call F → SavedStore F
  | .putMemory call env => { s with toLiveStore := (s.toLiveStore.putMemory cfg call env).1 }
  | .forget id env => { s with toLiveStore := (s.toLiveStore.forget id env).1 }
  | .saveFullSnapshot => s.saveFullSnapshot
  | .reopen firstId walk => s.reopen cfg firstId walk

/-- Make calls one after the other. -/
def run (cfg : WriteConfig F) (s : SavedStore F) (calls : List (Call F)) : SavedStore F :=
  calls.foldl (step cfg) s

/-! ## Copies -/

omit [F32 F] in
/-- A live memory holds what a call would store.  The embedding is in the hash. -/
def Holds (cfg : WriteConfig F) (s : LiveStore F) (id : MemoryId) (call : LiveStore.PutCall F) : Prop :=
  s.isAlive id = true ∧ ((s.ctx.payloads id).any fun p => p.kind = call.kind ∧
    p.realm = call.realm ∧ p.content = call.content ∧ p.chunkHash = call.chunkHash cfg) = true

/-- A call that leaves at most one copy. -/
def Keeps (cfg : WriteConfig F) (s : SavedStore F) : Call F → Prop
  | .putMemory call env =>
    (s.Stores cfg call env → s.chunkHashIdx (call.chunkHash cfg) = none) ∧
      ∀ id, (call.provKey cfg).bind s.contentProvIdx = some id → s.isAlive id = true →
        ∀ id', Holds cfg s.toLiveStore id' call → id' = id
  | .forget _ _ => True
  | .saveFullSnapshot => True
  | .reopen _ _ => ∀ id, s.recovered.status id = some false → s.saved.payloads id = none

/-- Calls that leave at most one copy, one after the other. -/
def KeepsAll (cfg : WriteConfig F) (s : SavedStore F) : List (Call F) → Prop
  | [] => True
  | call :: calls => s.Keeps cfg call ∧ (s.step cfg call).KeepsAll cfg calls

/-- The index of hashes has all live memories and all that a start would replay, and the latter have
different hashes. -/
structure Indexed (s : SavedStore F) : Prop where
  live : ∀ id p, s.isAlive id = true → s.ctx.payloads id = some p → s.chunkHashIdx p.chunkHash = some id
  replayed : ∀ put ∈ s.uncovered.filterMap putOf, s.chunkHashIdx put.chunkHash ≠ none
  distinct : ((s.uncovered.filterMap putOf).map PutPayloadOp.chunkHash).Nodup
  covered : s.covered ≤ s.wal.length

omit [F32 F] in
lemma indexed_empty (firstId : MemoryId) : (empty firstId : SavedStore F).Indexed where
  live _ _ _ h := nomatch h
  replayed _ h := nomatch h
  distinct := List.nodup_nil
  covered := le_rfl

/-! ## Calls of a running store -/

omit [F32 F] in
lemma filterMap_putOf_quiet {ops : List (Op F)} (h : ∀ op ∈ ops, isQuietOp op = true) :
    ops.filterMap putOf = [] := by
  refine List.filterMap_eq_nil_iff.mpr fun op hop => ?_
  cases op with
  | putPayload put => exact absurd (h _ hop) (by simp [isQuietOp, isSideOp])
  | _ => rfl

variable {s : SavedStore F}

omit [F32 F] in
/-- A call that stores nothing keeps the index. -/
lemma Indexed.quiet (h : s.Indexed) {live : LiveStore F}
    (hindex : live.chunkHashIdx = s.chunkHashIdx)
    (halive : ∀ id, live.isAlive id = true → s.isAlive id = true)
    (hpayload : ∀ id p, live.isAlive id = true → live.ctx.payloads id = some p →
      s.ctx.payloads id = some p)
    (hwal : ∃ ops, live.wal = s.wal ++ ops ∧ ops.filterMap putOf = []) :
    Indexed { s with toLiveStore := live } := by
  obtain ⟨ops, hwal, hops⟩ := hwal
  have huncovered : (uncovered { s with toLiveStore := live }).filterMap putOf =
      s.uncovered.filterMap putOf := by
    rw [uncovered, uncovered, hwal, List.drop_append_of_le_length h.covered, List.filterMap_append,
      hops, List.append_nil]
  refine ⟨fun id p hid hp => ?_, ?_, ?_, ?_⟩
  · exact (congrFun hindex _).trans (h.live id p (halive id hid) (hpayload id p hid hp))
  · rw [huncovered]
    exact fun put hput => hindex ▸ h.replayed put hput
  · rw [huncovered]
    exact h.distinct
  · exact h.covered.trans (by simp [hwal])

omit [F32 F] in
lemma newPayload_chunkHash (cfg : WriteConfig F) (id : MemoryId) (call : LiveStore.PutCall F)
    (env : LiveStore.PutEnv F) : (LiveStore.newPayload (LiveStore.putOp cfg id call env)
      call.embedPending).chunkHash = call.chunkHash cfg := by
  unfold LiveStore.newPayload
  split <;> rfl

variable {cfg : WriteConfig F}

/-- A memory that is stored under a new hash keeps the index. -/
lemma Indexed.putMemory (h : s.Indexed) {call : LiveStore.PutCall F} {env : LiveStore.PutEnv F}
    (hnew : s.Stores cfg call env → s.chunkHashIdx (call.chunkHash cfg) = none) :
    Indexed { s with toLiveStore := (s.toLiveStore.putMemory cfg call env).1 } := by
  by_cases hstores : s.Stores cfg call env
  · have hquiet := (LiveStore.putMemory_stores hstores).1
    have hnone := hnew hstores
    have hindex : (s.toLiveStore.putMemory cfg call env).1.chunkHashIdx =
      Maps.orInsert s.chunkHashIdx (call.chunkHash cfg) s.nextId := hquiet.chunkHashIdx
    have hself : (s.toLiveStore.putMemory cfg call env).1.chunkHashIdx (call.chunkHash cfg) =
        some s.nextId := by
      rw [hindex, Maps.orInsert, Function.update_self, hnone, Option.getD_none]
    have hother : ∀ hash ≠ call.chunkHash cfg,
        (s.toLiveStore.putMemory cfg call env).1.chunkHashIdx hash = s.chunkHashIdx hash := by
      intro hash hne
      rw [hindex, Maps.orInsert, Function.update_of_ne hne]
    obtain ⟨ops, hwal, hops⟩ : ∃ ops, (s.toLiveStore.putMemory cfg call env).1.wal = s.wal ++ ops ∧
        ops.filterMap putOf = [LiveStore.putOp cfg s.nextId call env] := by
      obtain ⟨ops, hwal, hops⟩ := hquiet.wal
      obtain ⟨derived, hderived, hside⟩ := (LiveStore.Quiet.logSide s.toLiveStore
        (if call.artifactRefs.isEmpty then env.derived else [])).wal
      refine ⟨derived ++ [.putPayload (LiveStore.putOp cfg s.nextId call env)] ++ ops, ?_, ?_⟩
      · rw [hwal, LiveStore.kept, hderived]
        simp only [List.append_assoc]
      · rw [List.filterMap_append, List.filterMap_append, filterMap_putOf_quiet hside,
          filterMap_putOf_quiet hops]
        rfl
    have huncovered : (uncovered { s with
        toLiveStore := (s.toLiveStore.putMemory cfg call env).1 }).filterMap putOf =
          s.uncovered.filterMap putOf ++ [LiveStore.putOp cfg s.nextId call env] := by
      rw [uncovered, uncovered, hwal, List.drop_append_of_le_length h.covered,
        List.filterMap_append, hops]
    refine ⟨fun id p hid hp => ?_, ?_, ?_, ?_⟩
    · obtain ⟨halive, hlive⟩ := KeyedStore.liveAs_kept hquiet
      rcases (hlive id p).mp ⟨hid, hp⟩ with ⟨rfl, rfl⟩ | ⟨hne, hold⟩
      · rw [newPayload_chunkHash]
        exact hself
      · have hsome := h.live id p hold.1 hold.2
        have hhash : p.chunkHash ≠ call.chunkHash cfg := by
          intro heq
          rw [heq, hnone] at hsome
          cases hsome
        exact (hother _ hhash).trans hsome
    · rw [huncovered]
      intro put hput
      rcases List.mem_append.mp hput with hput | hput
      · have hsome := h.replayed put hput
        have hhash : put.chunkHash ≠ call.chunkHash cfg := fun heq => hsome (heq ▸ hnone)
        rw [hother _ hhash]
        exact hsome
      · rw [List.mem_singleton.mp hput]
        exact hself.trans_ne (Option.some_ne_none _)
    · rw [huncovered, List.map_append, List.nodup_append]
      refine ⟨h.distinct, List.nodup_singleton _, fun a ha b hb heq => ?_⟩
      obtain ⟨put, hput, rfl⟩ := List.mem_map.mp ha
      obtain rfl := List.mem_singleton.mp hb
      exact h.replayed put hput (heq ▸ hnone)
    · exact h.covered.trans (by simp [hwal])
  · obtain ⟨n, -, hquiet⟩ := LiveStore.putMemory_idle hstores
    obtain ⟨ops, hwal, hops⟩ := hquiet.wal
    refine h.quiet hquiet.chunkHashIdx (fun id hid => (hquiet.isAlive id).symm.trans hid)
      (fun id p _ hp => (congrFun hquiet.payloads id).symm.trans hp)
      ⟨ops, hwal, filterMap_putOf_quiet hops⟩

omit [F32 F] in
/-- Forgetting a memory keeps the index. -/
lemma Indexed.forget (h : s.Indexed) (id : MemoryId) (env : LiveStore.ForgetEnv F) :
    Indexed { s with toLiveStore := (s.toLiveStore.forget id env).1 } := by
  rcases s.toLiveStore.forget_cases id env with heq | ⟨-, heq⟩ | ⟨-, -, -, hquiet⟩
  · rw [heq]
    exact h
  · rw [heq]
    exact h.quiet rfl (fun _ hid => hid) (fun _ _ _ hp => hp) ⟨_, rfl, rfl⟩
  · obtain ⟨ops, hwal, hops⟩ := hquiet.wal
    have halive : ∀ id', (s.toLiveStore.forget id env).1.isAlive id' = true →
        id' ≠ id ∧ s.isAlive id' = true := by
      intro id' hid
      rw [LiveStore.isAlive_eq, hquiet.status, LiveStore.status_forgotten, decide_eq_true_eq] at hid
      have hne : id' ≠ id := by
        rintro rfl
        rw [Maps.modifyAt_self] at hid
        obtain ⟨_, -, hfalse⟩ := Option.map_eq_some_iff.mp hid
        cases hfalse
      rw [Maps.modifyAt_of_ne hne] at hid
      exact ⟨hne, by rw [LiveStore.isAlive_eq, hid, decide_eq_true rfl]⟩
    refine h.quiet hquiet.chunkHashIdx (fun id' hid => (halive id' hid).2) (fun id' p hid hp => ?_)
      ⟨.deleteMemory ⟨id, env.ts⟩ :: ops, ?_, ?_⟩
    · rw [hquiet.payloads] at hp
      exact (Maps.modifyAt_of_ne (halive id' hid).1).symm.trans hp
    · rw [hwal, List.append_assoc, List.singleton_append]
    · rw [List.filterMap_cons_none rfl, filterMap_putOf_quiet hops]

/-! ## Starts -/

/-- An operation stores a payload, or leaves it with its hash. -/
lemma payload_applyOp (op : Op F) (ctx : ApplyCtx F) {id : MemoryId} {p : MemoryPayload F}
    (hp : (applyOp op ctx).payloads id = some p) :
    (∃ put, putOf op = some put ∧ put.memoryId = id ∧ put.chunkHash = p.chunkHash) ∨
      ∃ p', ctx.payloads id = some p' ∧ p'.chunkHash = p.chunkHash := by
  rw [payloads_applyOp, Option.or_eq_some_iff] at hp
  rcases hp with hput | ⟨-, hold⟩
  · cases op with
    | putPayload put =>
      obtain ⟨hid, hp⟩ := Option.ite_none_right_eq_some.mp hput
      exact Or.inl ⟨put, rfl, hid, Option.some.inj hp ▸ rfl⟩
    | _ => cases hput
  · obtain ⟨p', hp', rfl⟩ := Option.map_eq_some_iff.mp hold
    refine Or.inr ⟨p', hp', ?_⟩
    unfold rewritten
    split
    case h_4 => rfl
    all_goals split <;> rfl

/-- A memory that a replay leaves was there before, or an operation has stored it. -/
lemma exists_put_of_replayed {ops : List (Op F)} {ctx : ApplyCtx F} {id : MemoryId}
    {p : MemoryPayload F}
    (hp : (ops.foldl (fun ctx op => applyOp op ctx) ctx).payloads id = some p)
    (hnew : ctx.payloads id = none) :
    ∃ put ∈ ops.filterMap putOf, put.memoryId = id ∧ put.chunkHash = p.chunkHash := by
  induction ops using List.reverseRecOn generalizing p with
  | nil => exact absurd (hnew.symm.trans hp) (by simp)
  | append_singleton ops op ih =>
    rw [List.foldl_concat] at hp
    rw [List.filterMap_append]
    rcases payload_applyOp op _ hp with ⟨put, hop, hput⟩ | ⟨p', hp', hhash⟩
    · exact ⟨put, List.mem_append_right _ (List.mem_filterMap.mpr ⟨op, List.mem_singleton_self _, hop⟩),
        hput⟩
    · obtain ⟨put, hmem, hid, hput⟩ := ih hp'
      exact ⟨put, List.mem_append_left _ hmem, hid, hput.trans hhash⟩

omit [F32 F] in
/-- Where the replayed memories have different hashes, the index has each. -/
lemma replayChunkHashIdx_eq {ops : List (Op F)} {put : PutPayloadOp F}
    (hdistinct : ((ops.filterMap putOf).map PutPayloadOp.chunkHash).Nodup)
    (hput : put ∈ ops.filterMap putOf) :
    replayChunkHashIdx ops put.chunkHash = some put.memoryId := by
  refine Lanes.first_of_unique _ _ hput (List.mem_singleton_self _) fun put' hput' hhash => ?_
  exact List.inj_on_of_nodup_map hdistinct hput' hput (List.mem_singleton.mp hhash).symm

/-- A start that finds no live memory in its snapshot fills the index. -/
lemma Indexed.reopen (h : s.Indexed) {firstId : MemoryId} {walk : List (MemoryId × MemoryPayload F)}
    (hnone : ∀ id, s.recovered.status id = some false → s.saved.payloads id = none) :
    (s.reopen cfg firstId walk).Indexed := by
  refine ⟨fun id p hid hp => ?_, fun put hput => ?_, h.distinct, h.covered⟩
  · rw [LiveStore.isAlive_eq, decide_eq_true_eq] at hid
    obtain ⟨put, hput, rfl, hhash⟩ := exists_put_of_replayed hp (hnone id hid)
    exact hhash ▸ replayChunkHashIdx_eq h.distinct hput
  · exact (replayChunkHashIdx_eq h.distinct hput).trans_ne (Option.some_ne_none _)

/-! ## Runs -/

lemma Indexed.step (h : s.Indexed) {call : Call F} (hkeeps : s.Keeps cfg call) :
    (s.step cfg call).Indexed := by
  cases call with
  | putMemory => exact h.putMemory hkeeps.1
  | forget id env => exact h.forget id env
  | saveFullSnapshot =>
    have hnone : (s.saveFullSnapshot).uncovered = [] := List.drop_length
    refine ⟨h.live, ?_, ?_, le_rfl⟩
    · rw [SavedStore.step, hnone]
      exact fun put hput => nomatch hput
    · rw [SavedStore.step, hnone]
      exact List.nodup_nil
  | reopen => exact h.reopen hkeeps

lemma Indexed.run (h : s.Indexed) {calls : List (Call F)} (hkeeps : s.KeepsAll cfg calls) :
    (s.run cfg calls).Indexed := by
  induction calls generalizing s with
  | nil => exact h
  | cons call calls ih => exact ih (h.step hkeeps.1) hkeeps.2

omit [F32 F] in
/-- The index has a memory that holds what a call would store. -/
lemma Indexed.of_holds (h : s.Indexed) {id : MemoryId} {call : LiveStore.PutCall F}
    (hholds : Holds cfg s.toLiveStore id call) : s.chunkHashIdx (call.chunkHash cfg) = some id := by
  obtain ⟨hid, hany⟩ := hholds
  cases hp : s.ctx.payloads id with
  | none => simp [hp] at hany
  | some p =>
    rw [hp, Option.any_some, decide_eq_true_eq] at hany
    exact hany.2.2.2 ▸ h.live id p hid hp

/-- There is one live copy of everything, and a call that would store another returns it and stores
nothing. -/
structure Suppressed (cfg : WriteConfig F) (s : SavedStore F) : Prop where
  unique : ∀ call id id', Holds cfg s.toLiveStore id call → Holds cfg s.toLiveStore id' call → id = id'
  returned : ∀ call env id, s.Keeps cfg (.putMemory call env) → Holds cfg s.toLiveStore id call →
    (call.embedding = [] ∨ call.embedding.length = cfg.embedDim) →
      (s.toLiveStore.putMemory cfg call env).1.ctx.payloads = s.ctx.payloads ∧
        (s.toLiveStore.putMemory cfg call env).1.nextId = s.nextId ∧
        (s.toLiveStore.putMemory cfg call env).2 =
          env.replication.map fun _ => (id, call.chunkHash cfg)

lemma Indexed.suppressed (h : s.Indexed) (cfg : WriteConfig F) : s.Suppressed cfg where
  unique call id id' hid hid' :=
    Option.some.inj ((h.of_holds hid).symm.trans (h.of_holds hid'))
  returned call env id hkeeps hholds hdim := by
    have hguard : (!call.embedding.isEmpty && decide (call.embedding.length ≠ cfg.embedDim)) =
        false := by
      rcases hdim with hdim | hdim <;> simp [hdim]
    -- the gate of what is done, and behind it the index of hashes, find the copy
    obtain ⟨boost, hdup⟩ : ∃ boost, s.duplicateOf cfg call env.nearest = some (id, boost) := by
      unfold LiveStore.duplicateOf
      cases hprov : ((call.provKey cfg).bind s.contentProvIdx).filter s.isAlive with
      | some found =>
        obtain ⟨hfound, halive⟩ := Option.filter_eq_some_iff.mp hprov
        rw [hkeeps.2 found hfound halive id hholds]
        exact ⟨_, rfl⟩
      | none =>
        have hchunk : (s.chunkHashIdx (call.chunkHash cfg)).filter s.isAlive = some id :=
          Option.filter_eq_some_iff.mpr ⟨h.of_holds hholds, hholds.1⟩
        simp only [hchunk]
        exact ⟨_, rfl⟩
    have hupdate := LiveStore.Quiet.updateState s.toLiveStore id (some (F32.lit 0)) (some boost) none
      true none env.ts env.append
    unfold LiveStore.putMemory
    rw [hguard, hdup]
    cases hrep : env.replication with
    | error e =>
      simp only
      exact ⟨hupdate.payloads, hupdate.nextId, rfl⟩
    | ok =>
      simp only
      exact ⟨hupdate.payloads, hupdate.nextId, rfl⟩

/-- Behind calls that keep it so, duplicates are suppressed. -/
theorem duplicates_suppressed (cfg : WriteConfig F) (firstId : MemoryId) {calls : List (Call F)}
    (hkeeps : (empty firstId).KeepsAll cfg calls) : ((empty firstId).run cfg calls).Suppressed cfg :=
  ((indexed_empty firstId).run hkeeps).suppressed cfg

/-! ## One memory stored three times -/

/-- A memory without a session. -/
def sampleMemory : LiveStore.PutCall ℚ :=
  ⟨"insight", "work", [1], [], 1, 1 / 1000, 0, [], none, none⟩

/-- Store it. -/
def sampleStore (ts : ℤ) : Call ℚ :=
  .putMemory sampleMemory
    ⟨ts, none, [], none, none, [], [], .ok (), [], .ok [], fun _ => ⟨[], .ok ()⟩⟩

/-- Behind a deletion, and behind a start from a snapshot, there are two live copies. -/
theorem two_live_copies :
    (let s := (empty 1).run sampleConfig
      [sampleStore 5, .forget 1 ⟨6, .ok (), .ok (), []⟩, sampleStore 7, sampleStore 8]
    Holds sampleConfig s.toLiveStore 2 sampleMemory ∧ Holds sampleConfig s.toLiveStore 3 sampleMemory) ∧
    let s := (empty 1).run sampleConfig
      [sampleStore 5, .saveFullSnapshot, .reopen 101 [], sampleStore 6]
    Holds sampleConfig s.toLiveStore 1 sampleMemory ∧
      Holds sampleConfig s.toLiveStore 101 sampleMemory := by
  unfold Holds
  decide +kernel

/-- A memory is stored twice, before and behind a start without a snapshot. -/
theorem duplicates_suppressed_sample :
    ((empty 1).run sampleConfig [sampleStore 5, .reopen 101 [], sampleStore 6]).Suppressed
      sampleConfig := by
  have hprov : sampleMemory.provKey sampleConfig = none := by decide +kernel
  refine duplicates_suppressed sampleConfig 1 ⟨⟨fun _ => rfl, fun id hid => ?_⟩, fun _ _ => rfl,
    ⟨fun hstores => ?_, fun id hid => ?_⟩, trivial⟩
  · rw [hprov] at hid
    cases hid
  · rw [← KeyedStore.stores_iff] at hstores
    revert hstores
    decide +kernel
  · rw [hprov] at hid
    cases hid

end SavedStore

end ChittaField
