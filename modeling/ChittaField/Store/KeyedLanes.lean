import ChittaField.Store.Keyed

/-!
# Keyed lanes and their rebuild

`keyed_lanes_agree` says when the lanes of a running store answer as those that a start rebuilds: no
memory is forgotten that a lane has for a key while another live memory carries it, no memory is
stored under a key that a lane has a dead memory for, and the clock does not run backwards between
memories of one key.  The lane of corrections keeps all memories, and needs nothing.
-/

namespace ChittaField.KeyedStore

variable {F : Type}

/-! ## The best memory of a key -/

/-- A live memory with its payload. -/
def LiveAs (s : LiveStore F) (id : MemoryId) (p : MemoryPayload F) : Prop :=
  s.isAlive id = true ∧ s.ctx.payloads id = some p

/-- An entry of a lane, if it is alive, carries the key, and where a live memory carries the key the
entry is one that no other precedes. -/
structure Picks (s : LiveStore F) (keys : MemoryPayload F → List String)
    (precedes : MemoryId × MemoryPayload F → MemoryId × MemoryPayload F → Prop) (k : String)
    (entry : Option MemoryId) : Prop where
  carries : ∀ id, entry = some id → s.isAlive id = true → ∃ p, LiveAs s id p ∧ k ∈ keys p
  best : ∀ id p, LiveAs s id p → k ∈ keys p → ∃ id' p', entry = some id' ∧ LiveAs s id' p' ∧
    k ∈ keys p' ∧ precedes (id', p') (id, p)

variable {precedes : MemoryId × MemoryPayload F → MemoryId × MemoryPayload F → Prop}
    {keys : MemoryPayload F → List String} {k : String}

/-- There is one best memory. -/
lemma Picks.unique {s : LiveStore F} {entry entry' : Option MemoryId}
    (hanti : ∀ a b, precedes a b → precedes b a → a.1 = b.1) (h : Picks s keys precedes k entry)
    (h' : Picks s keys precedes k entry') : entry.filter s.isAlive = entry'.filter s.isAlive := by
  have hsame : ∀ {entry entry' : Option MemoryId}, Picks s keys precedes k entry →
      Picks s keys precedes k entry' → ∀ id, entry.filter s.isAlive = some id →
        entry'.filter s.isAlive = some id := by
    intro entry entry' h h' id hid
    obtain ⟨hentry, halive⟩ := Option.filter_eq_some_iff.mp hid
    obtain ⟨p, hp, hk⟩ := h.carries id hentry halive
    obtain ⟨id', p', hentry', hp', hk', hle⟩ := h'.best id p hp hk
    obtain ⟨id'', p'', hentry'', hp'', -, hle'⟩ := h.best id' p' hp' hk'
    obtain rfl : id'' = id := Option.some.inj (hentry''.symm.trans hentry)
    obtain rfl : p'' = p := Option.some.inj (hp''.2.symm.trans hp.2)
    obtain rfl : id' = id'' := hanti _ _ hle hle'
    exact Option.filter_eq_some_iff.mpr ⟨hentry', halive⟩
  exact Option.ext fun id => ⟨hsame h h' id, hsame h' h id⟩

/-- Earlier memories precede later ones. -/
def Earlier (a b : MemoryId × MemoryPayload F) : Prop := rank a ≤ rank b

/-- Later memories precede earlier ones. -/
def Later (a b : MemoryId × MemoryPayload F) : Prop := rank b ≤ rank a

lemma Earlier.antisymm (a b : MemoryId × MemoryPayload F) (h : Earlier a b) (h' : Earlier b a) :
    a.1 = b.1 :=
  congrArg (fun r : ℤ ×ₗ MemoryId => (ofLex r).2) (le_antisymm h h')

lemma Later.antisymm (a b : MemoryId × MemoryPayload F) (h : Later a b) (h' : Later b a) :
    a.1 = b.1 :=
  Earlier.antisymm a b h' h

/-- A memory that is not older and was stored behind another is not before it. -/
lemma rank_le {id id' : MemoryId} {p p' : MemoryPayload F} (htime : p.createdAtMs ≤ p'.createdAtMs)
    (hid : id ≤ id') : rank (id, p) ≤ rank (id', p') := by
  refine Prod.Lex.toLex_le_toLex.mpr ?_
  rcases lt_or_eq_of_le htime with hlt | heq
  · exact Or.inl hlt
  · exact Or.inr ⟨heq, hid⟩

/-! ## The rebuilt lanes -/

variable {walk : List (MemoryId × MemoryPayload F)}

/-- The memories of a rebuild are those of the store that pass the gate and are alive. -/
lemma mem_liveRecords {s : LiveStore F} (hwalk : Walks s walk)
    (hpaired : ∀ id, (s.ctx.payloads id).isSome = (s.ctx.status id).isSome)
    (gate : MemoryPayload F → Bool) (r : MemoryId × MemoryPayload F) :
    r ∈ liveRecords s walk gate ↔ LiveAs s r.1 r.2 ∧ gate r.2 = true := by
  obtain ⟨id, p⟩ := r
  rw [liveRecords, List.mem_insertionSort, List.mem_filter, hwalk.2, Bool.and_eq_true]
  have halive : s.ctx.payloads id = some p → (notDeleted s id = s.isAlive id) := by
    intro hp
    have hstate : (s.ctx.status id).isSome = true := by rw [← hpaired, hp, Option.isSome_some]
    unfold ApplyCtx.status at hstate
    unfold notDeleted LiveStore.isAlive
    cases hst : s.ctx.states id with
    | none => simp [hst] at hstate
    | some st => rfl
  constructor
  · rintro ⟨hp, hgate, hnot⟩
    exact ⟨⟨halive hp ▸ hnot, hp⟩, hgate⟩
  · rintro ⟨⟨hlive, hp⟩, hgate⟩
    exact ⟨hp, hgate, (halive hp).trans hlive⟩

lemma pairwise_liveRecords (s : LiveStore F) (walk : List (MemoryId × MemoryPayload F))
    (gate : MemoryPayload F → Bool) :
    (liveRecords s walk gate).Pairwise (rank · ≤ rank ·) := by
  have htotal : Std.Total fun a b : MemoryId × MemoryPayload F => rank a ≤ rank b :=
    ⟨fun a b => le_total _ _⟩
  have htrans : IsTrans (MemoryId × MemoryPayload F) fun a b => rank a ≤ rank b :=
    ⟨fun _ _ _ => le_trans⟩
  exact List.pairwise_insertionSort _ _

variable {entry : Option MemoryId}

/-- A lane that is rebuilt from the live memories picks the best of them. -/
lemma picks_of_rebuilt {s : LiveStore F}
    (hwalk : Walks s walk) (hpaired : ∀ id, (s.ctx.payloads id).isSome = (s.ctx.status id).isSome)
    {gate : MemoryPayload F → Bool} {parse keys : MemoryPayload F → List String}
    (hkeys : ∀ p k, k ∈ keys p ↔ gate p = true ∧ k ∈ parse p)
    (hcarries : ∀ id, entry = some id → ∃ r ∈ liveRecords s walk gate, r.1 = id ∧ k ∈ parse r.2)
    (hbest : ∀ r', r' ∈ liveRecords s walk gate → k ∈ parse r'.2 → ∃ r ∈ liveRecords s walk gate,
      entry = some r.1 ∧ k ∈ parse r.2 ∧ precedes r r') : Picks s keys precedes k entry where
  carries id hid _ := by
    obtain ⟨⟨id', p⟩, hr, rfl, hk⟩ := hcarries id hid
    obtain ⟨hlive, hgate⟩ := (mem_liveRecords hwalk hpaired gate _).mp hr
    exact ⟨p, hlive, (hkeys p k).mpr ⟨hgate, hk⟩⟩
  best id p hp hk := by
    obtain ⟨hgate, hparse⟩ := (hkeys p k).mp hk
    obtain ⟨r, hr, hentry, hkr, hle⟩ :=
      hbest (id, p) ((mem_liveRecords hwalk hpaired gate (id, p)).mpr ⟨hp, hgate⟩) hparse
    obtain ⟨hlive, hgate⟩ := (mem_liveRecords hwalk hpaired gate r).mp hr
    exact ⟨r.1, r.2, hentry, hlive, (hkeys r.2 k).mpr ⟨hgate, hkr⟩, hle⟩

/-! ## The invariant -/

/-- The lanes have the best memories, and the lane of corrections has all. -/
structure Sound (s : KeyedStore F) : Prop where
  fresh : s.Fresh
  paired : ∀ id, (s.ctx.payloads id).isSome = (s.ctx.status id).isSome
  prov : ∀ k, Picks s.toLiveStore (·.provKeys) Earlier k (s.provKeyIdx k)
  provKnown : ∀ k id, s.provKeyIdx k = some id → id < s.nextId
  task : ∀ k, Picks s.toLiveStore (parseTaskKeys ·.content) Later k (s.taskKeyIdx k)
  taskKnown : ∀ k id, s.taskKeyIdx k = some id → id < s.nextId
  correction : ∀ k id p, LiveAs s.toLiveStore id p →
    (id ∈ (s.correctionKeyIdx k).getD [] ↔ k ∈ parseCorrectionKeys p.content)
  correctionKnown : ∀ k, ∀ id ∈ (s.correctionKeyIdx k).getD [], id < s.nextId
  correctionNodup : ∀ k, ((s.correctionKeyIdx k).getD []).Nodup

lemma sound_empty (firstId : MemoryId) : (empty firstId : KeyedStore F).Sound where
  fresh _ _ := rfl
  paired _ := rfl
  prov _ := ⟨fun _ h => (nomatch h), fun _ _ h => (nomatch h.2)⟩
  provKnown _ _ h := nomatch h
  task _ := ⟨fun _ h => (nomatch h), fun _ _ h => (nomatch h.2)⟩
  taskKnown _ _ h := nomatch h
  correction _ _ _ h := nomatch h.2
  correctionKnown _ _ h := nomatch h
  correctionNodup _ := List.nodup_nil

variable {s : KeyedStore F}

/-- The lanes do not see a change that leaves the memories as they are. -/
lemma Sound.congr (h : s.Sound) {live : LiveStore F} (hpayloads : live.ctx.payloads = s.ctx.payloads)
    (hstatus : live.ctx.status = s.ctx.status) (hnext : s.nextId ≤ live.nextId) :
    Sound { s with toLiveStore := live } := by
  have halive : live.isAlive = s.isAlive := funext fun id => by
    rw [LiveStore.isAlive_eq, LiveStore.isAlive_eq, hstatus]
  have hlive : LiveAs live = LiveAs s.toLiveStore := by
    funext id p
    rw [LiveAs, LiveAs, halive, hpayloads]
  have hpicks : ∀ {keys precedes k entry}, Picks s.toLiveStore keys precedes k entry →
      Picks live keys precedes k entry := by
    intro keys precedes k entry h
    refine ⟨fun id hid halive' => ?_, fun id p hp => ?_⟩
    · rw [hlive]
      exact h.carries id hid (halive ▸ halive')
    · rw [hlive] at hp ⊢
      exact h.best id p hp
  refine ⟨fun id hid => ?_, fun id => ?_, fun k => hpicks (h.prov k), fun k id hid => ?_,
    fun k => hpicks (h.task k), fun k id hid => ?_, fun k id p hp => ?_, fun k id hid => ?_,
    h.correctionNodup⟩
  · exact (congrFun hpayloads id).trans (h.fresh id (hnext.trans hid))
  · exact hpayloads ▸ hstatus ▸ h.paired id
  · exact (h.provKnown k id hid).trans_le hnext
  · exact (h.taskKnown k id hid).trans_le hnext
  · exact h.correction k id p (hlive ▸ hp)
  · exact (h.correctionKnown k id hid).trans_le hnext

/-! ## Steps -/

/-- A memory that is stored is the best of its keys in the lane of what is done where there is none,
and is behind the live ones that are there. -/
def Orders (s : KeyedStore F) (call : LiveStore.PutCall F) (env : LiveStore.PutEnv F) : Prop :=
  (call.kind = "signal" → ∀ k ∈ parseProvKeys call.content, ∀ id, s.provKeyIdx k = some id →
    ∃ p, LiveAs s.toLiveStore id p ∧ p.createdAtMs ≤ env.ts) ∧
  ∀ k ∈ parseTaskKeys call.content, ∀ id p, LiveAs s.toLiveStore id p →
    k ∈ parseTaskKeys p.content → p.createdAtMs ≤ env.ts

/-- Where a lane has a memory for a key, no other live memory carries the key. -/
def Last (s : KeyedStore F) (id : MemoryId) : Prop :=
  (∀ k, s.provKeyIdx k = some id → ∀ id' p', LiveAs s.toLiveStore id' p' → k ∈ p'.provKeys →
    id' = id) ∧
  ∀ k, s.taskKeyIdx k = some id → ∀ id' p', LiveAs s.toLiveStore id' p' →
    k ∈ parseTaskKeys p'.content → id' = id

variable {p : MemoryPayload F}

section Picks

/-- A memory is live besides those that were. -/
structure Gains (s s' : LiveStore F) (newId : MemoryId) (p : MemoryPayload F) : Prop where
  alive : ∀ id, id ≠ newId → s'.isAlive id = s.isAlive id
  live : ∀ id p', LiveAs s' id p' ↔ id = newId ∧ p' = p ∨ id ≠ newId ∧ LiveAs s id p'

variable {s s' : LiveStore F} {newId : MemoryId} {idx : String → Option MemoryId} {new : List String}

/-- An entry stays when a new memory does not come before it. -/
lemma Picks.stays (h : Picks s keys precedes k entry) (hknown : ∀ id, entry = some id → id < newId)
    (hgains : Gains s s' newId p)
    (hnew : k ∈ keys p → ∃ best q, entry = some best ∧ LiveAs s best q ∧ k ∈ keys q ∧
      precedes (best, q) (newId, p)) : Picks s' keys precedes k entry where
  carries id hid hid' := by
    have hne : id ≠ newId := (hknown id hid).ne
    obtain ⟨p', hp', hk'⟩ := h.carries id hid (hgains.alive id hne ▸ hid')
    exact ⟨p', (hgains.live id p').mpr (Or.inr ⟨hne, hp'⟩), hk'⟩
  best id p' hp' hk' := by
    obtain ⟨best, q, hbest, hq, hkq, hle⟩ : ∃ best q, entry = some best ∧ LiveAs s best q ∧
        k ∈ keys q ∧ precedes (best, q) (id, p') := by
      rcases (hgains.live id p').mp hp' with ⟨rfl, rfl⟩ | ⟨-, hold⟩
      · exact hnew hk'
      · exact h.best id p' hold hk'
    exact ⟨best, q, hbest, (hgains.live best q).mpr (Or.inr ⟨(hknown best hbest).ne, hq⟩), hkq, hle⟩

/-- A lane that keeps its entries finds a new memory only where it has none. -/
lemma Picks.indexFirst (h : Picks s keys Earlier k (idx k))
    (hknown : ∀ id, idx k = some id → id < newId) (hgains : Gains s s' newId p) (hnew : ∀ k, k ∈ new ↔ k ∈ keys p)
    (horder : k ∈ new → ∀ id, idx k = some id → ∃ p', LiveAs s id p' ∧ p'.createdAtMs ≤ p.createdAtMs) :
    Picks s' keys Earlier k (Lanes.indexFirst idx newId new k) := by
  rw [Lanes.indexFirst_apply]
  by_cases hk : k ∈ new
  · rw [if_pos hk]
    have hself : LiveAs s' newId p := (hgains.live newId p).mpr (Or.inl ⟨rfl, rfl⟩)
    cases hidx : idx k with
    | none =>
      refine ⟨fun id hid _ => ⟨p, Option.some.inj hid ▸ hself, (hnew k).mp hk⟩, fun id p' hp' hk' => ?_⟩
      rcases (hgains.live id p').mp hp' with ⟨rfl, rfl⟩ | ⟨-, hold⟩
      · exact ⟨id, p', rfl, hself, hk', le_refl _⟩
      · obtain ⟨best, _, hbest, -⟩ := h.best id p' hold hk'
        rw [hidx] at hbest
        cases hbest
    | some old =>
      rw [Option.getD_some, ← hidx]
      refine h.stays hknown hgains fun _ => ?_
      obtain ⟨q, hq, htime⟩ := horder hk old hidx
      obtain ⟨q', hq', hkq⟩ := h.carries old hidx hq.1
      obtain rfl : q' = q := Option.some.inj (hq'.2.symm.trans hq.2)
      exact ⟨old, q', hidx, hq, hkq, rank_le htime (hknown old hidx).le⟩
  · rw [if_neg hk]
    exact h.stays hknown hgains fun hk' => absurd ((hnew k).mpr hk') hk

/-- A lane that replaces its entries finds a new memory. -/
lemma Picks.indexLatest (h : Picks s keys Later k (idx k))
    (hknown : ∀ id, idx k = some id → id < newId) (hgains : Gains s s' newId p) (hnew : ∀ k, k ∈ new ↔ k ∈ keys p)
    (horder : k ∈ new → ∀ id p', LiveAs s id p' → k ∈ keys p' → id < newId ∧
      p'.createdAtMs ≤ p.createdAtMs) :
    Picks s' keys Later k (Lanes.indexLatest idx newId new k) := by
  rw [Lanes.indexLatest_apply]
  have hself : LiveAs s' newId p := (hgains.live newId p).mpr (Or.inl ⟨rfl, rfl⟩)
  by_cases hk : k ∈ new
  · rw [if_pos hk]
    refine ⟨fun id hid _ => ⟨p, Option.some.inj hid ▸ hself, (hnew k).mp hk⟩, fun id p' hp' hk' => ?_⟩
    refine ⟨newId, p, rfl, hself, (hnew k).mp hk, ?_⟩
    rcases (hgains.live id p').mp hp' with ⟨rfl, rfl⟩ | ⟨-, hold⟩
    · exact le_refl _
    · obtain ⟨hlt, htime⟩ := horder hk id p' hold hk'
      exact rank_le htime hlt.le
  · rw [if_neg hk]
    exact h.stays hknown hgains fun hk' => absurd ((hnew k).mpr hk') hk

/-- A lane that keeps its entries when a memory is forgotten. -/
lemma Picks.forget {gone : MemoryId} (h : Picks s keys precedes k entry)
    (hlive : ∀ id p, LiveAs s' id p ↔ id ≠ gone ∧ LiveAs s id p)
    (halive : ∀ id, s'.isAlive id = true → id ≠ gone ∧ s.isAlive id = true)
    (hlast : entry = some gone → ∀ id p, LiveAs s id p → k ∈ keys p → id = gone) :
    Picks s' keys precedes k entry where
  carries id hid hid' := by
    obtain ⟨hne, hid'⟩ := halive id hid'
    obtain ⟨p, hp, hk⟩ := h.carries id hid hid'
    exact ⟨p, (hlive id p).mpr ⟨hne, hp⟩, hk⟩
  best id p hp hk := by
    obtain ⟨hne, hp⟩ := (hlive id p).mp hp
    obtain ⟨best, q, hbest, hq, hkq, hle⟩ := h.best id p hp hk
    refine ⟨best, q, hbest, (hlive best q).mpr ⟨fun heq => ?_, hq⟩, hkq, hle⟩
    exact hne (hlast (heq ▸ hbest) id p hp hk)

end Picks

variable [F32 F]

variable {cfg : WriteConfig F} {call : LiveStore.PutCall F} {env : LiveStore.PutEnv F}

lemma stores_iff {s : LiveStore F} : stores cfg s call env = true ↔ s.Stores cfg call env := by
  unfold stores LiveStore.Stores
  rw [Bool.and_eq_true, Bool.and_eq_true, Bool.or_eq_true, List.isEmpty_iff, beq_iff_eq,
    Option.isNone_iff_eq_none, and_assoc]
  refine and_congr_right fun _ => and_congr_right fun _ => ?_
  cases env.append with
  | error e => simp [Except.isOk, Except.toBool]
  | ok => simp [Except.isOk, Except.toBool]

/-- What a new memory adds to the live memories. -/
lemma liveAs_kept {s : LiveStore F} {live : LiveStore F} (hquiet : (s.kept cfg call env).Quiet live) :
    Gains s live s.nextId
      (LiveStore.newPayload (LiveStore.putOp cfg s.nextId call env) call.embedPending) := by
  have hstatus := hquiet.status.trans (LiveStore.status_kept cfg s call env)
  have hother : ∀ id, id ≠ s.nextId → live.isAlive id = s.isAlive id := by
    intro id hne
    rw [LiveStore.isAlive_eq, LiveStore.isAlive_eq, hstatus, Function.update_of_ne hne]
  refine ⟨hother, fun id p => ?_⟩
  have hpayloads : live.ctx.payloads = Function.update s.ctx.payloads s.nextId
      (some (LiveStore.newPayload (LiveStore.putOp cfg s.nextId call env) call.embedPending)) :=
    hquiet.payloads
  rw [LiveAs, hpayloads]
  by_cases hid : id = s.nextId
  · subst hid
    have hself : live.isAlive s.nextId = true := by
      rw [LiveStore.isAlive_eq, hstatus, Function.update_self]
      rfl
    simp [hself, eq_comm]
  · simp [hid, hother id hid, LiveAs]

omit [F32 F] in
/-- What the lanes read of a new payload. -/
lemma newPayload_fields (cfg : WriteConfig F) (id : MemoryId) (call : LiveStore.PutCall F)
    (env : LiveStore.PutEnv F) :
    let p := LiveStore.newPayload (LiveStore.putOp cfg id call env) call.embedPending
    p.kind = call.kind ∧ p.content = call.content ∧ p.createdAtMs = env.ts := by
  unfold LiveStore.newPayload
  split <;> exact ⟨rfl, rfl, rfl⟩

/-- A memory that is stored in order keeps the lanes. -/
lemma Sound.putMemory (h : s.Sound) (horders : s.Stores cfg call env → s.Orders call env) :
    (s.putMemory cfg call env).Sound := by
  unfold KeyedStore.putMemory
  by_cases hstores : s.Stores cfg call env
  · rw [if_pos (stores_iff.mpr hstores)]
    have hquiet := (LiveStore.putMemory_stores hstores).1
    have hgains := liveAs_kept hquiet
    obtain ⟨hprov, htask⟩ := horders hstores
    have hnew := newPayload_fields cfg s.nextId call env
    have hpayloads : (s.toLiveStore.putMemory cfg call env).1.ctx.payloads =
      Function.update s.ctx.payloads s.nextId (some (LiveStore.newPayload
        (LiveStore.putOp cfg s.nextId call env) call.embedPending)) := hquiet.payloads
    generalize LiveStore.newPayload (LiveStore.putOp cfg s.nextId call env) call.embedPending = p
      at hgains hnew hpayloads
    obtain ⟨hkind, hcontent, htime⟩ := hnew
    have hstatus := hquiet.status.trans (LiveStore.status_kept cfg s.toLiveStore call env)
    have hnext : (s.toLiveStore.putMemory cfg call env).1.nextId = s.nextId + 1 := hquiet.nextId
    have hknown : ∀ id p', LiveAs s.toLiveStore id p' → id < s.nextId := by
      intro id p' hp'
      by_contra hle
      rw [LiveAs, h.fresh id (not_lt.mp hle)] at hp'
      cases hp'.2
    refine ⟨fun id hid => ?_, fun id => ?_, fun k => ?_, fun k id hid => ?_, fun k => ?_,
      fun k id hid => ?_, fun k id p' hp' => ?_, fun k id hid => ?_, fun k => ?_⟩
    · exact h.fresh.putMemory cfg call env id hid
    · simp only [hpayloads, hstatus]
      by_cases hid : id = s.nextId
      · subst hid
        rw [Function.update_self, Function.update_self]
        rfl
      · rw [Function.update_of_ne hid, Function.update_of_ne hid]
        exact h.paired id
    · by_cases hsignal : call.kind = "signal"
      · simp only [if_pos hsignal]
        refine (h.prov k).indexFirst (h.provKnown k) hgains (fun k => ?_) ?_
        · rw [MemoryPayload.provKeys, if_pos (hkind.trans hsignal), hcontent]
        · exact fun hk id hid => htime ▸ hprov hsignal k hk id hid
      · simp only [if_neg hsignal]
        -- nothing is indexed: the payload has no keys in this lane
        have hnothing : ∀ k, k ∈ ([] : List String) ↔ k ∈ p.provKeys := by
          intro k
          rw [MemoryPayload.provKeys, if_neg (fun hk => hsignal (hkind.symm.trans hk))]
        exact (h.prov k).indexFirst (h.provKnown k) hgains hnothing fun hk => nomatch hk
    · rw [hnext]
      simp only at hid
      split at hid
      · rw [Lanes.indexFirst_apply] at hid
        split at hid
        · cases hidx : s.provKeyIdx k with
          | none =>
            rw [hidx, Option.getD_none, Option.some.injEq] at hid
            exact hid ▸ Nat.lt_succ_self _
          | some old =>
            rw [hidx, Option.getD_some, Option.some.injEq] at hid
            exact hid ▸ (h.provKnown k old hidx).trans (Nat.lt_succ_self _)
        · exact (h.provKnown k id hid).trans (Nat.lt_succ_self _)
      · exact (h.provKnown k id hid).trans (Nat.lt_succ_self _)
    · refine (h.task k).indexLatest (h.taskKnown k) hgains (fun k => by rw [hcontent]) ?_
      intro hk id p' hp' hk'
      exact ⟨hknown id p' hp', htime ▸ htask k hk id p' hp' hk'⟩
    · rw [hnext]
      simp only [Lanes.indexLatest_apply] at hid
      split at hid
      · exact Option.some.inj hid ▸ Nat.lt_succ_self _
      · exact (h.taskKnown k id hid).trans (Nat.lt_succ_self _)
    · rw [Lanes.mem_indexAll]
      rcases (hgains.live id p').mp hp' with ⟨rfl, rfl⟩ | ⟨hne, hold⟩
      · have hfresh : s.nextId ∉ (s.correctionKeyIdx k).getD [] :=
          fun hmem => lt_irrefl _ (h.correctionKnown k _ hmem)
        simp [hfresh, hcontent]
      · rw [h.correction k id p' hold]
        simp [hne]
    · rw [hnext]
      rcases (Lanes.mem_indexAll ..).mp hid with hid | ⟨rfl, -⟩
      · exact (h.correctionKnown k id hid).trans (Nat.lt_succ_self _)
      · exact Nat.lt_succ_self _
    · exact Lanes.nodup_indexAll _ h.correctionNodup k
  · rw [if_neg (fun h => hstores (stores_iff.mp h))]
    obtain ⟨n, hn, hquiet⟩ := LiveStore.putMemory_idle hstores
    exact h.congr hquiet.payloads hquiet.status (hn.trans_eq hquiet.nextId.symm)

omit [F32 F] in
/-- Forgetting the last memory of its keys keeps the lanes. -/
lemma Sound.forget (h : s.Sound) {id : MemoryId} {env : LiveStore.ForgetEnv F}
    (hlast : env.append = .ok () → env.sync = .ok () → s.Last id) : (s.forget id env).Sound := by
  unfold KeyedStore.forget
  rcases s.toLiveStore.forget_cases id env with heq | ⟨-, heq⟩ | ⟨-, happend, hsync, hquiet⟩
  · exact h.congr (by rw [heq]) (by rw [heq]) (by rw [heq])
  · exact h.congr (by rw [heq]) (by rw [heq]) (by rw [heq])
  · obtain ⟨hprov, htask⟩ := hlast happend hsync
    have hstatus := hquiet.status.trans (LiveStore.status_forgotten s.ctx id)
    have hnext : (s.toLiveStore.forget id env).1.nextId = s.nextId := hquiet.nextId
    have hpayloads : (s.toLiveStore.forget id env).1.ctx.payloads =
      Maps.modifyAt s.ctx.payloads id ({ · with content := [] }) := hquiet.payloads
    have halive : ∀ id', (s.toLiveStore.forget id env).1.isAlive id' = true ↔
        id' ≠ id ∧ s.isAlive id' = true := by
      intro id'
      rw [LiveStore.isAlive_eq, LiveStore.isAlive_eq, hstatus]
      by_cases hid : id' = id
      · subst hid
        cases s.ctx.status id' <;> simp
      · simp [hid]
    have hlive : ∀ id' p, LiveAs (s.toLiveStore.forget id env).1 id' p ↔
        id' ≠ id ∧ LiveAs s.toLiveStore id' p := by
      intro id' p
      rw [LiveAs, halive, hpayloads, LiveAs, and_assoc]
      refine and_congr_right fun hne => ?_
      rw [Maps.modifyAt_of_ne hne]
    refine ⟨fun id' hid => ?_, fun id' => ?_, fun k => ?_, fun k id' hid => ?_, fun k => ?_,
      fun k id' hid => ?_, fun k id' p hp => ?_, fun k id' hid => ?_, h.correctionNodup⟩
    · exact h.fresh.forget id env id' hid
    · simp only [hpayloads, hstatus, Maps.isSome_modifyAt]
      exact h.paired id'
    · exact (h.prov k).forget hlive (fun id' => (halive id').mp) (hprov k)
    · exact (h.provKnown k id' hid).trans_eq hnext.symm
    · exact (h.task k).forget hlive (fun id' => (halive id').mp) (htask k)
    · exact (h.taskKnown k id' hid).trans_eq hnext.symm
    · exact h.correction k id' p ((hlive id' p).mp hp).2
    · exact (h.correctionKnown k id' hid).trans_eq hnext.symm

/-! ## Answers -/

omit [F32 F] in
lemma mem_provKeys_iff (p : MemoryPayload F) (k : String) : k ∈ p.provKeys ↔
    (p.kind == "signal" && startsWithBytes "[done]" p.content) = true ∧
      k ∈ parseProvKeys p.content := by
  unfold MemoryPayload.provKeys
  split
  · rename_i hkind
    rw [hkind, beq_self_eq_true, Bool.true_and]
    exact ⟨fun hk => ⟨gate_of_mem_parseProvKeys hk, hk⟩, fun h => h.2⟩
  · rename_i hkind
    simp [hkind]

omit [F32 F] in
/-- A live correction is found by as many keys in both lanes. -/
lemma count_rebuilt (h : s.Sound) (hwalk : Walks s.toLiveStore walk) {id : MemoryId}
    (halive : s.isAlive id = true) (k : String) :
    (((s.rebuildKeyedIndexes walk).correctionKeyIdx k).getD []).count id =
      ((s.correctionKeyIdx k).getD []).count id := by
  obtain ⟨p, hp⟩ : ∃ p, s.ctx.payloads id = some p := by
    rw [← Option.isSome_iff_exists, h.paired]
    rw [LiveStore.isAlive_eq, decide_eq_true_eq] at halive
    rw [halive, Option.isSome_some]
  have hmem : id ∈ ((s.rebuildKeyedIndexes walk).correctionKeyIdx k).getD [] ↔
      id ∈ (s.correctionKeyIdx k).getD [] := by
    rw [h.correction k id p ⟨halive, hp⟩, rebuildKeyedIndexes, Lanes.mem_all]
    constructor
    · rintro ⟨⟨id', p'⟩, hr, rfl, hk⟩
      obtain ⟨hlive, -⟩ := (mem_liveRecords hwalk h.paired _ _).mp hr
      exact Option.some.inj (hlive.2.symm.trans hp) ▸ hk
    · intro hk
      exact ⟨(id, p), (mem_liveRecords hwalk h.paired _ _).mpr
        ⟨⟨halive, hp⟩, gate_of_mem_parseCorrectionKeys hk⟩, rfl, hk⟩
  have hnodup : (((s.rebuildKeyedIndexes walk).correctionKeyIdx k).getD []).Nodup :=
    Lanes.nodup_all _ _ _ k
  rw [hnodup.count, (h.correctionNodup k).count]
  exact if_congr hmem rfl rfl

omit [F32 F] in
/-- The live corrections that fire. -/
lemma filter_fired_rebuilt (h : s.Sound) (hwalk : Walks s.toLiveStore walk) (keys : List String) :
    ((s.rebuildKeyedIndexes walk).firedCorrections keys).filter s.isAlive =
      (s.firedCorrections keys).filter s.isAlive := by
  have hmem : ∀ (s : KeyedStore F) id, id ∈ s.firedCorrections keys ↔
      2 ≤ (keys.flatMap fun k => (s.correctionKeyIdx k).getD []).count id := by
    intro s id
    rw [firedCorrections, List.mem_insertionSort, List.mem_filter, List.mem_dedup, decide_eq_true_eq]
    refine ⟨fun h => h.2, fun h => ⟨?_, h⟩⟩
    exact List.count_pos_iff.mp (lt_of_lt_of_le Nat.zero_lt_two h)
  have hsorted : ∀ s : KeyedStore F, (s.firedCorrections keys).Pairwise (· ≥ ·) :=
    fun s => List.pairwise_insertionSort _ _
  have hnodup : ∀ s : KeyedStore F, (s.firedCorrections keys).Nodup :=
    fun s => (List.perm_insertionSort _ _).nodup_iff.mpr ((List.nodup_dedup _).filter _)
  refine List.Perm.eq_of_pairwise (fun a b _ _ hab hba => le_antisymm hba hab)
    ((hsorted _).filter _) ((hsorted s).filter _) ?_
  refine (List.perm_ext_iff_of_nodup ((hnodup _).filter _) ((hnodup s).filter _)).mpr fun id => ?_
  rw [List.mem_filter, List.mem_filter, hmem, hmem]
  refine and_congr_left fun halive => ?_
  rw [List.count_flatMap, List.count_flatMap]
  have hcount := funext (count_rebuilt h hwalk halive)
  exact iff_of_eq (congrArg (fun count : String → ℕ => 2 ≤ (keys.map count).sum) hcount)

omit [F32 F] in
/-- The answers are those of the rebuilt lanes: the earliest memory of a key that says that something
is done, the corrections, and the newest memory of a task. -/
structure Agrees (s : KeyedStore F) : Prop where
  provenance : ∀ walk, Walks s.toLiveStore walk → ∀ sha input,
    (s.rebuildKeyedIndexes walk).provenanceLookup sha input = s.provenanceLookup sha input
  correction : ∀ walk, Walks s.toLiveStore walk → ∀ text,
    (s.rebuildKeyedIndexes walk).correctionCheck text = s.correctionCheck text
  task : ∀ walk, Walks s.toLiveStore walk → ∀ id,
    (s.rebuildKeyedIndexes walk).taskStateLookup id = s.taskStateLookup id
  earliest : ∀ sha input key, provCandidates sha input = [key] → ∀ id p,
    LiveAs s.toLiveStore id p → key ∈ p.provKeys → ∃ id' p',
      s.provenanceLookup sha input = some (id', p'.content) ∧ LiveAs s.toLiveStore id' p' ∧
        key ∈ p'.provKeys ∧ Earlier (id', p') (id, p)
  newest : ∀ task key, taskQueryKey task = some key → ∀ id p,
    LiveAs s.toLiveStore id p → key ∈ parseTaskKeys p.content → ∃ id' p',
      s.taskStateLookup task = some (id', p'.content) ∧ LiveAs s.toLiveStore id' p' ∧
        key ∈ parseTaskKeys p'.content ∧ Later (id', p') (id, p)

omit [F32 F] in
lemma Sound.agrees (h : s.Sound) : s.Agrees where
  provenance walk hwalk sha input := by
    have hkey : ∀ key, ((s.rebuildKeyedIndexes walk).provKeyIdx key).filter s.isAlive =
        (s.provKeyIdx key).filter s.isAlive := fun key =>
      (picks_of_rebuilt hwalk h.paired mem_provKeys_iff (fun _ => Lanes.exists_of_first) fun _ hr hk =>
        Lanes.first_least (pairwise_liveRecords _ _ _) hr hk).unique Earlier.antisymm (h.prov key)
    have hfun : ∀ key, (((s.rebuildKeyedIndexes walk).provKeyIdx key).filter
        (s.rebuildKeyedIndexes walk).isAlive).map (fun id =>
          (id, (s.rebuildKeyedIndexes walk).contentOf id)) =
        ((s.provKeyIdx key).filter s.isAlive).map fun id => (id, s.contentOf id) :=
      fun key => congrArg (Option.map _) (hkey key)
    simp only [provenanceLookup, hfun]
  correction walk hwalk text := by
    have hfired : ∀ keys, ((s.rebuildKeyedIndexes walk).firedCorrections keys).filter
        (s.rebuildKeyedIndexes walk).isAlive = (s.firedCorrections keys).filter s.isAlive :=
      filter_fired_rebuilt h hwalk
    simp only [correctionCheck, hfired]
    rfl
  task walk hwalk id := by
    have hgate : ∀ (p : MemoryPayload F) k, k ∈ parseTaskKeys p.content ↔
        startsWithBytes "[task]" p.content = true ∧ k ∈ parseTaskKeys p.content :=
      fun p k => ⟨fun hk => ⟨gate_of_mem_parseTaskKeys hk, hk⟩, fun h => h.2⟩
    have hkey : ∀ key, ((s.rebuildKeyedIndexes walk).taskKeyIdx key).filter s.isAlive =
        (s.taskKeyIdx key).filter s.isAlive := fun key =>
      (picks_of_rebuilt hwalk h.paired hgate (fun _ => Lanes.exists_of_latest) fun _ hr hk =>
        Lanes.latest_greatest (pairwise_liveRecords _ _ _) hr hk).unique Later.antisymm (h.task key)
    have hfun : ∀ key, (((s.rebuildKeyedIndexes walk).taskKeyIdx key).filter
        (s.rebuildKeyedIndexes walk).isAlive).map (fun id =>
          (id, (s.rebuildKeyedIndexes walk).contentOf id)) =
        ((s.taskKeyIdx key).filter s.isAlive).map fun id => (id, s.contentOf id) :=
      fun key => congrArg (Option.map _) (hkey key)
    simp only [taskStateLookup, hfun]
  earliest sha input key hquery id p hp hk := by
    obtain ⟨id', p', hidx, hp', hk', hle⟩ := (h.prov key).best id p hp hk
    refine ⟨id', p', ?_, hp', hk', hle⟩
    simp [provenanceLookup, hquery, hidx, hp'.1, LiveStore.contentOf, hp'.2]
  newest task key hquery id p hp hk := by
    obtain ⟨id', p', hidx, hp', hk', hle⟩ := (h.task key).best id p hp hk
    refine ⟨id', p', ?_, hp', hk', hle⟩
    simp [taskStateLookup, hquery, hidx, hp'.1, LiveStore.contentOf, hp'.2]

/-! ## Runs -/

/-- A call that keeps the lanes. -/
def Keeps (cfg : WriteConfig F) (s : KeyedStore F) : Call F → Prop
  | .putMemory call env => s.Stores cfg call env → s.Orders call env
  | .forget id env => env.append = .ok () → env.sync = .ok () → s.Last id

/-- Calls that keep the lanes, one after the other. -/
def KeepsAll (cfg : WriteConfig F) (s : KeyedStore F) : List (Call F) → Prop
  | [] => True
  | call :: calls => s.Keeps cfg call ∧ (s.step cfg call).KeepsAll cfg calls

lemma Sound.step (h : s.Sound) {call : Call F} (hkeeps : s.Keeps cfg call) : (s.step cfg call).Sound := by
  cases call with
  | putMemory => exact h.putMemory hkeeps
  | forget id env => exact h.forget hkeeps

lemma Sound.run (h : s.Sound) {calls : List (Call F)} (hkeeps : s.KeepsAll cfg calls) :
    (s.run cfg calls).Sound := by
  induction calls generalizing s with
  | nil => exact h
  | cons call calls ih => exact ih (h.step hkeeps.1) hkeeps.2

/-- Behind calls that keep the lanes, these answer as those that a start rebuilds. -/
theorem keyed_lanes_agree (cfg : WriteConfig F) (firstId : MemoryId) {calls : List (Call F)}
    (hkeeps : (empty firstId).KeepsAll cfg calls) : ((empty firstId).run cfg calls).Agrees :=
  ((sound_empty firstId).run hkeeps).agrees

/-! ## Two records of one input -/

/-- A store where contents of different lengths differ. -/
def keyedConfig : WriteConfig ℚ := { sampleConfig with contentHash := List.length }

/-- Store a signal without a session. -/
def sampleRecord (content : String) (ts : ℤ) : Call ℚ :=
  .putMemory ⟨"signal", "work", asciiBytes content.toList, [], 1, 1 / 1000, 0, [], none, none⟩
    ⟨ts, none, [], none, none, [], [], .ok (), [], .ok [], fun _ => ⟨[], .ok ()⟩⟩

/-- Forget a memory. -/
def sampleForget (id : MemoryId) : Call ℚ := .forget id ⟨9, .ok (), .ok (), []⟩

omit [F32 F] in
/-- The memories of a store by their ids. -/
lemma walks_range {s : LiveStore F} (h : s.Fresh) : Walks s ((List.range s.nextId).filterMap fun id =>
    (s.ctx.payloads id).map (Prod.mk id)) := by
  refine ⟨List.nodup_range.filterMap fun a a' b hb hb' => ?_, fun id p => ?_⟩
  · obtain ⟨p, -, hp⟩ := Option.map_eq_some_iff.mp hb
    obtain ⟨p', -, hp'⟩ := Option.map_eq_some_iff.mp hb'
    exact congrArg Prod.fst (hp.trans hp'.symm)
  · rw [List.mem_filterMap]
    constructor
    · rintro ⟨id', -, hid⟩
      obtain ⟨p', hp', heq⟩ := Option.map_eq_some_iff.mp hid
      cases heq
      exact hp'
    · intro hp
      refine ⟨id, List.mem_range.mpr ?_, by rw [hp, Option.map_some]⟩
      by_contra hle
      rw [h id (not_lt.mp hle)] at hp
      cases hp

lemma fresh_run (h : s.Fresh) (cfg : WriteConfig F) (calls : List (Call F)) :
    (s.run cfg calls).Fresh := by
  refine List.foldlRecOn (motive := fun s : KeyedStore F => s.Fresh) calls _ h fun s h call _ => ?_
  cases call with
  | putMemory call env =>
    simp only [step, KeyedStore.putMemory]
    split <;> exact h.putMemory cfg call env
  | forget id env => exact h.forget id env

/-- Where the first of two records of an input is forgotten, a lookup by the input finds nothing, and
the rebuilt lane has the second. -/
theorem forgotten_record_hides :
    let s := (empty 1).run keyedConfig
      [sampleRecord "[done] input:a" 5, sampleRecord "[done] input:a again" 6, sampleForget 1]
    s.provenanceLookup "" "a" = none ∧ ∃ walk, Walks s.toLiveStore walk ∧
      (s.rebuildKeyedIndexes walk).provenanceLookup "" "a" =
        some (2, asciiBytes "[done] input:a again".toList) := by
  have hfresh := fresh_run (fun _ _ => rfl : (empty 1).Fresh) keyedConfig
    [sampleRecord "[done] input:a" 5, sampleRecord "[done] input:a again" 6, sampleForget 1]
  exact ⟨by decide +kernel, _, walks_range hfresh, by decide +kernel⟩

/-- The memories behind some calls. -/
def sampleWalk (calls : List (Call ℚ)) : List (MemoryId × MemoryPayload ℚ) :=
  let s := (empty 1).run keyedConfig calls
  (List.range s.nextId).filterMap fun id => (s.ctx.payloads id).map (Prod.mk id)

lemma mem_sampleWalk {calls : List (Call ℚ)} {id : MemoryId} {p : MemoryPayload ℚ}
    (h : LiveAs ((empty 1).run keyedConfig calls).toLiveStore id p) : (id, p) ∈ sampleWalk calls :=
  ((walks_range (fresh_run (fun _ _ => rfl : (empty 1).Fresh) keyedConfig calls)).2 id p).mpr h.2

/-- A record is stored and forgotten, and a task is stored between. -/
theorem lanes_agree_sample :
    ((empty 1).run keyedConfig
      [sampleRecord "[done] input:a" 5, sampleRecord "[task] id:x" 6, sampleForget 1]).Agrees := by
  refine keyed_lanes_agree keyedConfig 1 ⟨fun _ => ?_, fun _ => ?_, fun _ _ => ?_, trivial⟩
  · exact ⟨fun _ _ _ _ h => (nomatch h), fun _ _ _ _ h => (nomatch h.2)⟩
  · refine ⟨fun _ k hk => absurd hk ?_, fun k _ id p hp _ => ?_⟩
    · have hnone : parseProvKeys (asciiBytes "[task] id:x".toList) = [] := by decide +kernel
      rw [hnone]
      exact List.not_mem_nil
    · have hall : ∀ r ∈ sampleWalk [sampleRecord "[done] input:a" 5], r.2.createdAtMs ≤ 6 := by
        decide +kernel
      exact hall (id, p) (mem_sampleWalk hp)
  · constructor
    · intro k _ id p hp hk
      have hall : ∀ r ∈ sampleWalk [sampleRecord "[done] input:a" 5, sampleRecord "[task] id:x" 6],
          r.2.provKeys = [] ∨ r.1 = 1 := by decide +kernel
      rcases hall (id, p) (mem_sampleWalk hp) with hnone | hid
      · simp only at hnone
        rw [hnone] at hk
        cases hk
      · exact hid
    · intro k hk id p hp hk'
      have hall : ∀ r ∈ sampleWalk [sampleRecord "[done] input:a" 5, sampleRecord "[task] id:x" 6],
          ∀ k ∈ parseTaskKeys r.2.content, ((empty 1).run keyedConfig [sampleRecord "[done] input:a" 5,
            sampleRecord "[task] id:x" 6]).taskKeyIdx k ≠ some 1 := by decide +kernel
      exact absurd hk (hall (id, p) (mem_sampleWalk hp) k hk')

end ChittaField.KeyedStore
