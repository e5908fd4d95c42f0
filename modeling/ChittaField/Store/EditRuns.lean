import ChittaField.Store.Edits
import ChittaField.Store.KeyedLanes

/-!
# Edits along a run

A running store is kept if an open of its log would find the same: the payloads say the same, the
index of words is that of the replay, the vectors are those of the replay that have the right length,
and a memory waits for its vector iff it lives and the replay has one of a wrong length.

`edits_agree` says which calls keep it so.
-/

namespace ChittaField

variable {F : Type}

/-- What edits change of a payload. -/
def MemoryPayload.edited (p : MemoryPayload F) : String × String × Bytes := (p.kind, p.realm, p.content)

/-! ## Words in another order -/

variable {id : MemoryId}

namespace KeywordIndex

/-- Two indexes have the same words, and forget the same. -/
structure Like (k k' : KeywordIndex) : Prop where
  postings : k.postings = k'.postings
  docLengths : k.docLengths = k'.docLengths
  terms : ∀ id term, (k.docTerms id).all (term ∈ ·) = (k'.docTerms id).all (term ∈ ·)

variable {T : Casing} {k k' : KeywordIndex}

lemma Like.refl (k : KeywordIndex) : k.Like k := ⟨rfl, rfl, fun _ _ => rfl⟩

lemma Like.remove (h : k.Like k') (id : MemoryId) : (k.remove id).Like (k'.remove id) := by
  unfold KeywordIndex.remove
  rw [← h.docLengths]
  cases k.docLengths id with
  | none => exact h
  | some oldLen =>
    refine ⟨funext fun term => ?_, rfl, fun x term => ?_⟩
    · dsimp only
      rw [h.postings, h.terms]
    · by_cases hx : x = id
      · simp [hx]
      · simp [hx, h.terms]

/-- The order of the words does not matter. -/
lemma Like.index (h : k.Like k') (id : MemoryId) {content content' : String}
    (hwords : (tokenize T content).Perm (tokenize T content')) :
    (k.index T id content).Like (k'.index T id content') := by
  have hremoved := h.remove id
  unfold KeywordIndex.index
  dsimp only
  rw [hwords.length_eq]
  split
  · exact hremoved
  · refine ⟨funext fun term => ?_, ?_, fun x term => ?_⟩
    · dsimp only
      rw [hremoved.postings, hwords.count_eq]
      simp only [hwords.mem_iff]
    · exact congrArg (Function.update · id _) hremoved.docLengths
    · by_cases hx : x = id
      · simp [hx, hwords.mem_iff]
      · simp [hx, hremoved.terms]

/-- Removing what is not there changes nothing. -/
lemma remove_of_none (h : k.docLengths id = none) : k.remove id = k := by
  rw [KeywordIndex.remove, h]

end KeywordIndex

/-! ## What a store and a replay say of a memory -/

variable [F32 F] {T : Casing} {cfg : WriteConfig F}

/-- What a replay says of a memory. -/
structure Told where
  edited : Option (String × String × Bytes)
  flags : Option (Bool × Bool)
  dim : Option ℕ

def told (c : IndexCtx F) (id : MemoryId) : Told :=
  ⟨(c.ctx.payloads id).map (·.edited), (c.ctx.states id).map (·.flags), c.semanticIdx.dims id⟩

variable {c c' : IndexCtx F}

/-- Quiet operations leave these parts alone. -/
lemma told_quiet {ops : List (Op F)} (h : ∀ op ∈ ops, isQuietOp op = true) (c : IndexCtx F) :
    told (applyAllIndexed T ops c) = told c ∧ (applyAllIndexed T ops c).keywordIdx = c.keywordIdx := by
  refine applyAllIndexed_keeps (P := fun c' => told c' = told c ∧ c'.keywordIdx = c.keywordIdx)
    (fun op hop c' hc => ?_) ⟨rfl, rfl⟩
  have hquiet := h op hop
  cases op with
  | updateState d =>
    refine ⟨Eq.trans (funext fun id => ?_) hc.1, hc.2⟩
    exact congrArg (Told.mk _ · _)
      (congrFun (c'.ctx.flags_modifyState_of_eq _ fun st => st.flags_applyDelta d _) id)
  | addAssocEdge | upsertArtifact | addTriplet | invalidateTriplet | supersedeTriplet
  | updateSparseCode => exact hc
  | _ => cases hquiet

/-- A new memory. -/
lemma told_put (op : PutPayloadOp F) (hnone : c.ctx.states op.memoryId = none) (id : MemoryId) :
    told (applyOpIndexed T (.putPayload op) c) id =
      if id = op.memoryId then
        ⟨some (MemoryPayload.ofPut op).edited, some (false, false), some op.embedding.length⟩
      else told c id := by
  split
  · rename_i h
    subst h
    simp [told, applyOpIndexed, applyOp, SemanticIds.upsert, hnone, MemoryState.new,
      MemoryState.flags, MemoryPayload.edited]
  · rename_i h
    simp [told, applyOpIndexed, applyOp, SemanticIds.upsert, h]

/-- A new content; a vector that comes with it is one that the replay does not wait for. -/
lemma told_content (op : UpdateMemoryContentOp F)
    (hidle : ∀ st ∈ c.ctx.states op.memoryId, st.embedPending = false) (id : MemoryId) :
    told (applyOpIndexed T (.updateMemoryContent op) c) id =
      if id = op.memoryId then
        ⟨(told c id).edited.map fun e => (e.1, e.2.1, op.content), (told c id).flags,
          if op.embedding.isEmpty then (told c id).dim else some op.embedding.length⟩
      else told c id := by
  have hpayloads : (applyOp (.updateMemoryContent op) c.ctx).payloads id =
    (c.ctx.payloads id).map (rewritten id (.updateMemoryContent op)) := payloads_applyOp ..
  have hflags : ((applyOp (.updateMemoryContent op) c.ctx).states id).map (·.flags) =
      (c.ctx.states id).map (·.flags) := by
    rw [flags_applyOp]
    cases hst : c.ctx.states id with
    | none => rfl
    | some st =>
      refine congrArg some ?_
      simp only [flagsAfter]
      split_ifs with hempty hid
      · rfl
      · subst hid
        exact Prod.ext rfl (hidle st hst).symm
      · rfl
  rw [told, ctx_applyOpIndexed, hpayloads, hflags, Option.map_map]
  by_cases hid : id = op.memoryId
  · subst hid
    simp only [if_pos, told, applyOpIndexed, SemanticIds.upsert, rewritten, Option.map_map,
      Function.comp_def, MemoryPayload.edited]
    split <;> simp
  · simp only [if_neg hid, told, applyOpIndexed, SemanticIds.upsert, rewritten, if_neg (Ne.symm hid),
      Function.comp_def]
    split <;> simp [hid]

lemma told_kind (op : UpdateMemoryKindOp) (id : MemoryId) :
    told (applyOpIndexed T (.updateMemoryKind op) c) id =
      if id = op.memoryId then
        { told c id with edited := (told c id).edited.map fun e => (op.newKind, e.2) }
      else told c id := by
  have hpayloads : (applyOp (.updateMemoryKind op) c.ctx).payloads id =
    (c.ctx.payloads id).map (rewritten id (.updateMemoryKind op)) := payloads_applyOp ..
  rw [told, ctx_applyOpIndexed, hpayloads, Option.map_map]
  by_cases hid : id = op.memoryId
  · subst hid
    simp only [if_pos, told, rewritten, Option.map_map, Function.comp_def, MemoryPayload.edited]
    rfl
  · simp only [if_neg hid, told, rewritten, if_neg (Ne.symm hid), Function.comp_def]
    rfl

/-- A replay takes a deleted memory from the indexes. -/
lemma told_delete (d : DeleteMemoryOp) (id : MemoryId) :
    told (applyOpIndexed T (.deleteMemory d) c) id =
      if id = d.memoryId then
        ⟨(told c id).edited.map fun e => (e.1, e.2.1, []),
          (told c id).flags.map fun flags => (true, flags.2), none⟩
      else told c id := by
  have hdims : (applyOpIndexed T (.deleteMemory d) c).semanticIdx.dims =
      Function.update c.semanticIdx.dims d.memoryId none := by
    simp only [applyOpIndexed]
    cases c.ctx.payloads d.memoryId <;> rfl
  rw [told, hdims, ctx_applyOpIndexed]
  simp only [applyOp, ApplyCtx.modifyState, ApplyCtx.modifyPayload, Maps.modifyAt,
    Function.update_apply]
  by_cases hid : id = d.memoryId
  · simp [hid, told, Function.comp_def, MemoryPayload.edited, MemoryState.flags]
  · simp [hid, told]

/-! ## A store that is kept -/

namespace EditStore

/-- What a running store says of a memory. -/
structure Said where
  edited : Option (String × String × Bytes)
  flags : Option (Bool × Bool)
  dim : Option ℕ
  docLength : Option ℕ
  realms : Set String
  kinds : Set String

def said (s : EditStore F) (id : MemoryId) : Said :=
  ⟨(s.ctx.payloads id).map (·.edited), (s.ctx.states id).map (·.flags), s.semanticIdx.dims id,
    s.keywordIdx.docLengths id, s.realmMembers.keysOf id, s.kindMembers.keysOf id⟩

/-- What a store has to say of a memory.  It is a member of its realm and of its kind as long as it
lives, and then waits for a vector if that of the replay has a wrong length. -/
def Said.present (embedDim : ℕ) (edited : String × String × Bytes) (deleted : Bool)
    (dim docLength : Option ℕ) : Said where
  edited := some edited
  flags := some (deleted, !deleted && dim.any (· ≠ embedDim))
  dim := dim.filter (· = embedDim)
  docLength := docLength
  realms := if deleted then ∅ else {edited.2.1}
  kinds := if deleted then ∅ else {edited.1}

/-- A store and a replay both do not know a memory, or say the same; that of a live one the replay has
a vector. -/
def Good (embedDim : ℕ) (v : Said) (w : Told) : Prop :=
  (v = ⟨none, none, none, none, ∅, ∅⟩ ∧ w = ⟨none, none, none⟩) ∨
    ∃ edited deleted dim docLength, (deleted = false → dim ≠ none) ∧
      v = .present embedDim edited deleted dim docLength ∧ w = ⟨some edited, some (deleted, false), dim⟩

section Good

variable {embedDim : ℕ} {v : Said} {w : Told}

lemma Good.edited (h : Good embedDim v w) : v.edited = w.edited := by
  rcases h with ⟨rfl, rfl⟩ | ⟨_, _, _, _, -, rfl, rfl⟩ <;> rfl

lemma Good.dim (h : Good embedDim v w) : v.dim = w.dim.filter (· = embedDim) := by
  rcases h with ⟨rfl, rfl⟩ | ⟨_, _, _, _, -, rfl, rfl⟩ <;> rfl

/-- A live memory is a member of its realm and of its kind, and of no others. -/
lemma Good.members (h : Good embedDim v w) :
    v.realms = {name | w.flags.map (·.1) = some false ∧ w.edited.map (·.2.1) = some name} ∧
      v.kinds = {name | w.flags.map (·.1) = some false ∧ w.edited.map (·.1) = some name} := by
  rcases h with ⟨rfl, rfl⟩ | ⟨edited, deleted, _, _, -, rfl, rfl⟩
  · simp
  · cases deleted <;> simp [Said.present, eq_comm]

end Good

/-- The running store has what an open makes of a replay. -/
structure Kept (embedDim : ℕ) (s : EditStore F) (c : IndexCtx F) : Prop where
  good : ∀ id, Good embedDim (s.said id) (told c id)
  keyword : s.keywordIdx.Like c.keywordIdx
  noneEmpty : s.realmMembers.NoneEmpty ∧ s.kindMembers.NoneEmpty
  fresh : s.toLiveStore.Fresh

variable {embedDim : ℕ} {s s' : EditStore F}

omit [F32 F] in
/-- A change of one memory. -/
lemma Kept.change (h : s.Kept embedDim c) (id : MemoryId) (hsaid : ∀ x ≠ id, s'.said x = s.said x)
    (htold : ∀ x ≠ id, told c' x = told c x) (hgood : Good embedDim (s'.said id) (told c' id))
    (hkeyword : s'.keywordIdx.Like c'.keywordIdx)
    (hnoneEmpty : s'.realmMembers.NoneEmpty ∧ s'.kindMembers.NoneEmpty) (hfresh : s'.Fresh) :
    s'.Kept embedDim c' := by
  refine ⟨fun x => ?_, hkeyword, hnoneEmpty, hfresh⟩
  by_cases hx : x = id
  · rw [hx]
    exact hgood
  · rw [hsaid x hx, htold x hx]
    exact h.good x

omit [F32 F] in
/-- A change of the store, and of the replay, that edits nothing. -/
lemma Kept.quiet (h : s.Kept embedDim c) (live : LiveStore F)
    (hpayloads : live.ctx.payloads = s.ctx.payloads)
    (hflags : live.ctx.flags = s.ctx.flags)
    (hnext : s.nextId ≤ live.nextId) (hc : told c' = told c ∧ c'.keywordIdx = c.keywordIdx) :
    ({ s with toLiveStore := live } : EditStore F).Kept embedDim c' := by
  refine ⟨fun id => ?_, hc.2 ▸ h.keyword, h.noneEmpty, fun id hid => ?_⟩
  · have hsaid : ({ s with toLiveStore := live } : EditStore F).said id = s.said id := by
      rw [said, said, hpayloads]
      exact congrArg (Said.mk _ · _ _ _ _) (congrFun hflags id)
    rw [hc.1, hsaid]
    exact h.good id
  · exact (congrFun hpayloads id).trans (h.fresh id (hnext.trans hid))

omit [F32 F] in
/-- A memory that is not there is not in the replay either. -/
lemma Kept.absent (h : s.Kept embedDim c) (hid : s.ctx.payloads id = none) :
    s.said id = ⟨none, none, none, none, ∅, ∅⟩ ∧ told c id = ⟨none, none, none⟩ := by
  refine (h.good id).resolve_right ?_
  rintro ⟨edited, deleted, dim, docLength, -, hsaid, -⟩
  have hedited := congrArg Said.edited hsaid
  rw [said, hid] at hedited
  cases hedited

omit [F32 F] in
/-- What is said of a memory that is there. -/
lemma Kept.present (h : s.Kept embedDim c) {p : MemoryPayload F} (hp : s.ctx.payloads id = some p) :
    ∃ deleted dim docLength, (deleted = false → dim ≠ none) ∧
      s.said id = .present embedDim p.edited deleted dim docLength ∧
      told c id = ⟨some p.edited, some (deleted, false), dim⟩ := by
  rcases h.good id with ⟨hsaid, -⟩ | ⟨edited, deleted, dim, docLength, hdim, hsaid, htold⟩
  · have hedited := congrArg Said.edited hsaid
    rw [said, hp] at hedited
    cases hedited
  · have hedited := congrArg Said.edited hsaid
    rw [said, hp] at hedited
    obtain rfl := Option.some.inj hedited
    exact ⟨deleted, dim, docLength, hdim, hsaid, htold⟩

omit [F32 F] in
lemma isLive_of_flags {ctx : ApplyCtx F} {flags : Bool × Bool}
    (h : (ctx.states id).map (·.flags) = some flags) : ctx.isLive id = !flags.1 := by
  obtain ⟨st, hst, rfl⟩ := Option.map_eq_some_iff.mp h
  rw [ApplyCtx.isLive, hst]
  rfl

/-- A new memory, in the store and in the replay. -/
lemma Kept.stored (h : s.Kept embedDim c) (op : PutPayloadOp F) (live : LiveStore F)
    {payload : MemoryPayload F} {state : MemoryState F} {semanticIdx : SemanticIds}
    {keywordIdx : KeywordIndex} (hid : op.memoryId = s.nextId)
    (hpayload : payload.edited = (MemoryPayload.ofPut op).edited)
    (hstate : state.flags = (false, decide (op.embedding.length ≠ embedDim)))
    (hpayloads : live.ctx.payloads = Function.update s.ctx.payloads s.nextId (some payload))
    (hstates : live.ctx.states = Function.update s.ctx.states s.nextId (some state))
    (hnext : live.nextId = s.nextId + 1)
    (hsemantic : semanticIdx.dims = Function.update s.semanticIdx.dims s.nextId
      (if op.embedding.length = embedDim then some embedDim else none))
    (hkeyword : keywordIdx.Like (c.keywordIdx.index T s.nextId (decodeText op.content))) :
    (⟨live, semanticIdx, keywordIdx,
      s.realmMembers.insert op.realm s.nextId, s.kindMembers.insert op.kind s.nextId⟩ :
        EditStore F).Kept embedDim (applyOpIndexed T (.putPayload op) c) := by
  obtain ⟨hsaid, htold⟩ := h.absent (h.fresh s.nextId le_rfl)
  have hnone : c.ctx.states op.memoryId = none := by
    rw [hid]
    exact Option.map_eq_none_iff.mp (congrArg Told.flags htold)
  refine h.change s.nextId (fun x hx => ?_) (fun x hx => ?_) ?_ (hid ▸ hkeyword)
    ⟨h.noneEmpty.1.insert _ _, h.noneEmpty.2.insert _ _⟩ fun x hle => ?_
  · simp only [said, hpayloads, hstates, hsemantic, Function.update_of_ne hx, hkeyword.docLengths,
      KeywordIndex.docLengths_index_of_ne hx, h.keyword.docLengths, Members.keysOf_insert,
      if_neg (Ne.symm hx)]
  · rw [told_put op hnone, if_neg (hid ▸ hx)]
  · refine Or.inr ⟨(MemoryPayload.ofPut op).edited, false, some op.embedding.length,
      keywordIdx.docLengths s.nextId, fun _ => Option.some_ne_none _, ?_, ?_⟩
    · have hrealms : s.realmMembers.keysOf s.nextId = ∅ := congrArg Said.realms hsaid
      have hkinds : s.kindMembers.keysOf s.nextId = ∅ := congrArg Said.kinds hsaid
      simp only [said, Said.present, hpayloads, hstates, hsemantic, Function.update_self,
        Option.map_some, hpayload, hstate, Members.keysOf_insert, if_pos, hrealms, hkinds,
        Option.filter_some, LawfulSingleton.insert_empty_eq]
      by_cases hlen : op.embedding.length = embedDim <;> simp [hlen, MemoryPayload.edited, MemoryPayload.ofPut]
    · rw [told_put op hnone, if_pos hid.symm]
  · have hlt : s.nextId < x := hnext.symm.trans_le hle
    change live.ctx.payloads x = none
    rw [hpayloads, Function.update_of_ne hlt.ne']
    exact h.fresh x hlt.le

/-! ## One step -/

/-- A call that a replay repeats: a new memory comes with a vector or will get one, and its words are
those of its content; a new content has the words that a strict decoder finds, and a vector only
where none is waited for; a live memory keeps its kind; a memory that gets a realm lives in it; none
is forgotten that waits for a vector; and a deletion that cannot be synced finds nothing left. -/
def Faithful (T : Casing) (cfg : WriteConfig F) (s : EditStore F) : EditCall F → Prop
  | .putMemory call env level canonicals => s.Stores cfg call env →
    (call.embedding = [] → LiveStore.minEmbedChars ≤ call.content.length) ∧
      (if call.kind = "process" then []
        else tokenize T (indexText call.content level canonicals)).Perm
          (tokenize T (decodeText call.content))
  | .updateMemoryContent op append =>
    (op.embedding = [] ∨ op.embedding.length = cfg.embedDim) → append.isOk = true →
      s.ctx.payloads op.memoryId ≠ none →
        (tokenize T (Lossy.fromUtf8Lossy op.content)).Perm (tokenize T (decodeText op.content)) ∧
          (op.embedding ≠ [] → ∀ st ∈ s.ctx.states op.memoryId, st.embedPending = false)
  | .updateMemoryKind op append => append.isOk = true → s.ctx.isLive op.memoryId = true →
    ∀ p ∈ s.ctx.payloads op.memoryId, op.newKind = p.kind
  | .setRealm memoryId newRealm => ∀ p ∈ s.ctx.payloads memoryId,
    s.ctx.isLive memoryId = true ∧ newRealm = p.realm
  | .forget memoryId env => env.append.isOk = true → ∀ st ∈ s.ctx.states memoryId,
    st.embedPending = false ∧ (env.sync.isOk = true ∨ st.deleted = true ∧
      (∀ p ∈ s.ctx.payloads memoryId, p.content = []) ∧
        s.keywordIdx.docLengths memoryId = none ∧ s.semanticIdx.dims memoryId = none)

/-- What a replay of the log gives. -/
def replayed (T : Casing) (s : EditStore F) : IndexCtx F := applyAllIndexed T s.wal .empty

omit [F32 F] in
/-- A replay of a log with one more operation. -/
lemma replayed_append [F32 F] (wal ops : List (Op F)) : applyAllIndexed T (wal ++ ops) .empty =
    applyAllIndexed T ops (applyAllIndexed T wal .empty) :=
  applyAllIndexed_append _ _ _

lemma Kept.putMemory (h : s.Kept cfg.embedDim (s.replayed T)) (hdim : 0 < cfg.embedDim)
    {call : LiveStore.PutCall F} {env : LiveStore.PutEnv F} {level : FilterLevel}
    {canonicals : List String} (hfaithful : Faithful T cfg s (.putMemory call env level canonicals)) :
    (s.putMemory T cfg call env level canonicals).Kept cfg.embedDim
      ((s.putMemory T cfg call env level canonicals).replayed T) := by
  unfold EditStore.putMemory
  by_cases hstores : s.Stores cfg call env
  · rw [if_pos (KeyedStore.stores_iff.mpr hstores)]
    obtain ⟨hlong, hwords⟩ := hfaithful hstores
    have hquiet := (LiveStore.putMemory_stores hstores).1
    have hpendingIff : call.embedPending = decide (call.embedding.length ≠ cfg.embedDim) := by
      unfold LiveStore.PutCall.embedPending
      rcases hstores.1 with hnil | hlen
      · simp [hnil, hlong hnil, hdim.ne]
      · have hne : call.embedding ≠ [] := by
          rintro heq
          rw [heq] at hlen
          exact hdim.ne hlen
        simp [hlen, List.isEmpty_iff, hne]
    have hunseen := (h.absent (h.fresh s.nextId le_rfl)).1
    have hunworded : s.keywordIdx.docLengths s.nextId = none := congrArg Said.docLength hunseen
    have hnone : s.semanticIdx.dims s.nextId = none := congrArg Said.dim hunseen
    -- the organs log in front of the new memory
    have hside := (LiveStore.Quiet.logSide s.toLiveStore
      (if call.artifactRefs.isEmpty then env.derived else [])).wal
    obtain ⟨sides, hsides, hsideQuiet⟩ := hside
    have hfront := h.quiet s.toLiveStore rfl rfl le_rfl
      (told_quiet (T := T) hsideQuiet (s.replayed T))
    have hsemantic : (if call.embedPending then s.semanticIdx
        else s.semanticIdx.upsert s.nextId call.embedding.length).dims =
        Function.update s.semanticIdx.dims s.nextId
          (if call.embedding.length = cfg.embedDim then some cfg.embedDim else none) := by
      rw [hpendingIff]
      by_cases hlen : call.embedding.length = cfg.embedDim
      · simp [hlen, SemanticIds.upsert]
      · simp [hlen, ← hnone]
    have hkeyword : ∀ {k : KeywordIndex}, s.keywordIdx.Like k →
        (if call.kind = "process" then s.keywordIdx
          else s.keywordIdx.index T s.nextId (indexText call.content level canonicals)).Like
            (k.index T s.nextId (decodeText call.content)) := by
      intro k hk
      split at hwords
      · rename_i hprocess
        rw [if_pos hprocess, KeywordIndex.index_of_wordless hwords.nil_eq.symm,
          KeywordIndex.remove_of_none (congrFun hk.docLengths _ ▸ hunworded)]
        exact hk
      · rename_i hprocess
        rw [if_neg hprocess]
        exact hk.index _ hwords
    have hpayload : (LiveStore.newPayload (LiveStore.putOp cfg s.nextId call env)
        call.embedPending).edited =
        (MemoryPayload.ofPut (LiveStore.putOp cfg s.nextId call env)).edited := by
      unfold LiveStore.newPayload
      split <;> rfl
    have hstate : ∀ payloads, (LiveStore.newState cfg payloads s.nextId call env).flags =
        (false, decide ((LiveStore.putOp cfg s.nextId call env).embedding.length ≠ cfg.embedDim)) :=
      fun payloads => congrArg (Prod.mk false) hpendingIff
    have hstored := hfront.stored (T := T) (LiveStore.putOp cfg s.nextId call env)
      (s.kept cfg call env) rfl hpayload (hstate _) rfl rfl rfl hsemantic (hkeyword hfront.keyword)
    obtain ⟨ops, hwal, hops⟩ := hquiet.wal
    have hlast := hstored.quiet (s.toLiveStore.putMemory cfg call env).1 hquiet.payloads
      hquiet.flags
      hquiet.nextId.ge (told_quiet (T := T) hops _)
    have hreplayed : applyAllIndexed T (s.toLiveStore.putMemory cfg call env).1.wal .empty =
        applyAllIndexed T ops (applyOpIndexed T (.putPayload (LiveStore.putOp cfg s.nextId call env))
          (applyAllIndexed T sides (s.replayed T))) := by
      have hkept : (s.kept cfg call env).wal = (s.wal ++ sides) ++
          [.putPayload (LiveStore.putOp cfg s.nextId call env)] := by
        rw [← hsides]
        rfl
      rw [hwal, hkept, replayed_append, replayed_append, replayed_append]
      rfl
    unfold replayed
    rw [hreplayed]
    exact hlast
  · rw [if_neg (fun hs => hstores (KeyedStore.stores_iff.mp hs))]
    obtain ⟨n, hn, hquiet⟩ := LiveStore.putMemory_idle hstores
    obtain ⟨ops, hwal, hops⟩ := hquiet.wal
    have hreplayed : ({ s with toLiveStore := (s.toLiveStore.putMemory cfg call env).1 } :
        EditStore F).replayed T = applyAllIndexed T ops (s.replayed T) := by
      rw [replayed, hwal]
      exact replayed_append _ _
    rw [hreplayed]
    exact h.quiet _ hquiet.payloads hquiet.flags (hn.trans hquiet.nextId.ge) (told_quiet hops _)

lemma Kept.updateMemoryContent (h : s.Kept cfg.embedDim (s.replayed T)) {op : UpdateMemoryContentOp F}
    {append : Except FieldError Unit} (hfaithful : Faithful T cfg s (.updateMemoryContent op append)) :
    (s.updateMemoryContent T cfg.embedDim op append).Kept cfg.embedDim
      ((s.updateMemoryContent T cfg.embedDim op append).replayed T) := by
  unfold EditStore.updateMemoryContent
  by_cases hlen : (!op.embedding.isEmpty && decide (op.embedding.length ≠ cfg.embedDim)) = true
  · rw [if_pos hlen]
    exact h
  rw [if_neg hlen]
  by_cases hskip : ((s.ctx.payloads op.memoryId).isNone || !append.isOk) = true
  · rw [if_pos hskip]
    exact h
  rw [if_neg hskip]
  have hdim : op.embedding = [] ∨ op.embedding.length = cfg.embedDim := by
    simpa [List.isEmpty_iff, or_iff_not_imp_left] using hlen
  obtain ⟨hsome, happend⟩ : s.ctx.payloads op.memoryId ≠ none ∧ append.isOk = true := by
    simpa using hskip
  obtain ⟨hwords, hready⟩ := hfaithful hdim happend hsome
  obtain ⟨p, hp⟩ := Option.ne_none_iff_exists'.mp hsome
  obtain ⟨deleted, dim, docLength, hlive, hsaid, htold⟩ := h.present hp
  unfold replayed
  rw [replayed_append]
  change Kept _ _ (applyOpIndexed T (.updateMemoryContent op) (s.replayed T))
  -- the replay waits for no vector, so that taking the flag away changes nothing
  have hidle : ∀ st ∈ (s.replayed T).ctx.states op.memoryId, st.embedPending = false := by
    intro st hst
    have hflags := congrArg Told.flags htold
    rw [told, hst] at hflags
    exact congrArg Prod.snd (Option.some.inj hflags)
  refine h.change op.memoryId (fun x hx => ?_) (fun x hx => ?_) ?_ (h.keyword.index _ hwords)
    h.noneEmpty fun x hx => Maps.modifyAt_eq_none.mpr (h.fresh x hx)
  · simp only [said, ApplyCtx.modifyPayload, Maps.modifyAt_of_ne hx, SemanticIds.upsert,
      KeywordIndex.docLengths_index_of_ne hx]
    split <;> simp [hx]
  · rw [told_content op hidle, if_neg hx]
  · rw [told_content op hidle, if_pos rfl, htold]
    refine Or.inr ⟨_, deleted, if op.embedding.isEmpty then dim else some op.embedding.length,
      (s.keywordIdx.index T op.memoryId (Lossy.fromUtf8Lossy op.content)).docLengths op.memoryId,
      fun halive => ?_, ?_, rfl⟩
    · split
      · exact hlive halive
      · exact Option.some_ne_none _
    · have hflags : (s.ctx.states op.memoryId).map (·.flags) = some (deleted, !deleted &&
          (if op.embedding.isEmpty then dim else some op.embedding.length).any (· ≠ cfg.embedDim)) := by
        have hold : (s.ctx.states op.memoryId).map (·.flags) = _ := congrArg Said.flags hsaid
        split
        · exact hold
        · rename_i hne
          obtain ⟨st, hst, hflag⟩ := Option.map_eq_some_iff.mp hold
          have hnil : op.embedding ≠ [] := fun hnil => hne (List.isEmpty_iff.mpr hnil)
          have hdeleted : st.deleted = deleted := congrArg Prod.fst hflag
          rw [hst, hdim.resolve_left hnil, Option.map_some, MemoryState.flags, hdeleted,
            hready hnil st hst]
          simp
      simp only [Said.present, Said.mk.injEq, said] at hsaid ⊢
      refine ⟨?_, hflags, ?_, trivial, hsaid.2.2.2.2.1, hsaid.2.2.2.2.2⟩
      · simp [ApplyCtx.modifyPayload, hp, MemoryPayload.edited]
      · split
        · exact hsaid.2.2.1
        · rename_i hne
          have hlength := hdim.resolve_left fun hnil => hne (List.isEmpty_iff.mpr hnil)
          simp [SemanticIds.upsert, hlength, Option.filter_some]

lemma Kept.updateMemoryKind (h : s.Kept cfg.embedDim (s.replayed T)) {op : UpdateMemoryKindOp}
    {append : Except FieldError Unit} (hfaithful : Faithful T cfg s (.updateMemoryKind op append)) :
    (s.updateMemoryKind op append).Kept cfg.embedDim ((s.updateMemoryKind op append).replayed T) := by
  unfold EditStore.updateMemoryKind
  by_cases happend : append.isOk = true
  · rw [if_pos happend]
    have hkind := hfaithful happend
    unfold replayed
    rw [replayed_append]
    change Kept _ _ (applyOpIndexed T (.updateMemoryKind op) (s.replayed T))
    refine h.change op.memoryId (fun x hx => ?_) (fun x hx => ?_) ?_ h.keyword h.noneEmpty
      fun x hx => Maps.modifyAt_eq_none.mpr (h.fresh x hx)
    · simp only [said, ApplyCtx.modifyPayload, Maps.modifyAt_of_ne hx]
    · rw [told_kind, if_neg hx]
    · rw [told_kind, if_pos rfl]
      cases hp : s.ctx.payloads op.memoryId with
      | none =>
        obtain ⟨hsaid, htold⟩ := h.absent hp
        refine Or.inl ⟨Eq.trans ?_ hsaid, by rw [htold]; rfl⟩
        simp [said, ApplyCtx.modifyPayload, hp]
      | some p =>
        obtain ⟨deleted, dim, docLength, hlive, hsaid, htold⟩ := h.present hp
        refine Or.inr ⟨(op.newKind, p.realm, p.content), deleted, dim, docLength, hlive, ?_, ?_⟩
        · simp only [Said.present, Said.mk.injEq, said] at hsaid ⊢
          refine ⟨?_, hsaid.2.1, hsaid.2.2.1, hsaid.2.2.2.1, hsaid.2.2.2.2.1, ?_⟩
          · simp [ApplyCtx.modifyPayload, hp, MemoryPayload.edited]
          · rw [hsaid.2.2.2.2.2]
            cases deleted with
            | true => rfl
            | false =>
              have halive : s.ctx.isLive op.memoryId = true :=
                isLive_of_flags hsaid.2.1
              rw [hkind halive p hp]
              rfl
        · rw [htold]
          rfl
  · rw [if_neg happend]
    exact h

omit [F32 F] in
/-- A realm that the memory has already is given to it in vain. -/
lemma Kept.setRealm_self (h : s.Kept embedDim c) {newRealm : String}
    (hsame : ∀ p ∈ s.ctx.payloads id, s.ctx.isLive id = true ∧ newRealm = p.realm) :
    s.setRealm id newRealm = s := by
  unfold EditStore.setRealm
  cases hp : s.ctx.payloads id with
  | none => rfl
  | some p =>
    obtain ⟨hlive, rfl⟩ := hsame p hp
    obtain ⟨deleted, dim, docLength, -, hsaid, -⟩ := h.present hp
    have hctx : s.ctx.modifyPayload id ({ · with realm := p.realm }) = s.ctx := by
      have hpayloads : Maps.modifyAt s.ctx.payloads id ({ · with realm := p.realm }) =
          s.ctx.payloads := by
        unfold Maps.modifyAt
        rw [hp]
        exact Function.update_eq_self_iff.mpr hp.symm
      unfold ApplyCtx.modifyPayload
      rw [hpayloads]
    have hmember : id ∈ (s.realmMembers p.realm).getD ∅ := by
      change p.realm ∈ s.realmMembers.keysOf id
      have hflags : (s.ctx.states id).map (·.flags) = _ := congrArg Said.flags hsaid
      have hrealms : s.realmMembers.keysOf id = _ := congrArg Said.realms hsaid
      obtain rfl : deleted = false := by simpa [isLive_of_flags hflags] using hlive
      rw [hrealms]
      exact rfl
    have hmembers : Members.insert
        (Maps.modifyAt s.realmMembers p.realm fun ids => ids.erase id) p.realm id = s.realmMembers := by
      unfold Members.insert Maps.modifyAt
      rw [Function.update_idem, Function.update_self]
      refine Function.update_eq_self_iff.mpr ?_
      cases hids : s.realmMembers p.realm with
      | none =>
        rw [hids] at hmember
        exact absurd hmember (Finset.notMem_empty id)
      | some ids =>
        rw [hids] at hmember
        exact congrArg some (Finset.insert_erase hmember)
    dsimp only
    rw [hctx, hmembers]

/-- A memory that is there is forgotten: nothing but its kind, its realm and its old state is left. -/
lemma Kept.delete (h : s.Kept embedDim c) (d : DeleteMemoryOp) {p : MemoryPayload F}
    (hp : s.ctx.payloads d.memoryId = some p) (hsaid : ∀ x ≠ d.memoryId, s'.said x = s.said x)
    (hgone : s'.said d.memoryId = .present embedDim (p.kind, p.realm, []) true none none)
    (hkeyword : s'.keywordIdx = s.keywordIdx.remove d.memoryId)
    (hnoneEmpty : s'.realmMembers.NoneEmpty ∧ s'.kindMembers.NoneEmpty) (hfresh : s'.Fresh) :
    s'.Kept embedDim (applyOpIndexed T (.deleteMemory d) c) := by
  refine h.change d.memoryId hsaid (fun x hx => ?_) ?_ ?_ hnoneEmpty hfresh
  · rw [told_delete, if_neg hx]
  · obtain ⟨deleted, dim, docLength, -, -, htold⟩ := h.present hp
    rw [told_delete, if_pos rfl, htold]
    exact Or.inr ⟨_, true, none, none, nofun, hgone, rfl⟩
  · have hkeyword' : (applyOpIndexed T (.deleteMemory d) c).keywordIdx =
        c.keywordIdx.remove d.memoryId := by
      simp only [applyOpIndexed]
      cases c.ctx.payloads d.memoryId <;> rfl
    rw [hkeyword, hkeyword']
    exact h.keyword.remove d.memoryId

omit [F32 F] in
/-- No realm, and no kind, has a memory that has been taken from its own. -/
lemma keysOf_remove_own {members : Members} {key : String} {deleted : Bool}
    (h : members.keysOf id = if deleted then ∅ else {key}) :
    (members.remove key id).keysOf id = ∅ := by
  rw [Members.keysOf_remove, if_pos rfl, h]
  cases deleted <;> ext <;> simp

lemma Kept.forget (h : s.Kept cfg.embedDim (s.replayed T)) {env : LiveStore.ForgetEnv F}
    (hfaithful : Faithful T cfg s (.forget id env)) :
    (s.forget id env).Kept cfg.embedDim ((s.forget id env).replayed T) := by
  unfold EditStore.forget LiveStore.forget
  cases hstate : s.ctx.states id with
  | none => exact h
  | some st =>
    cases happend : env.append with
    | error e => exact h
    | ok =>
      obtain ⟨hready, hsync⟩ := hfaithful (by rw [happend]; rfl) st hstate
      obtain ⟨p, hp⟩ : ∃ p, s.ctx.payloads id = some p := by
        refine Option.ne_none_iff_exists'.mp fun hnone => ?_
        have hflags := congrArg Said.flags (h.absent hnone).1
        rw [said, hstate] at hflags
        cases hflags
      obtain ⟨deleted, dim, docLength, -, hsaid, -⟩ := h.present hp
      have hrealms : s.realmMembers.keysOf id = if deleted then ∅ else {p.realm} :=
        congrArg Said.realms hsaid
      have hkinds : s.kindMembers.keysOf id = if deleted then ∅ else {p.kind} :=
        congrArg Said.kinds hsaid
      cases hsynced : env.sync with
      | ok =>
        have hbase : Kept cfg.embedDim
            (⟨{ s.toLiveStore with
                ctx := LiveStore.forgotten s.ctx id
                wal := s.wal ++ [.deleteMemory ⟨id, env.ts⟩] },
              s.semanticIdx.remove id, s.keywordIdx.remove id, s.realmMembers.remove p.realm id,
              s.kindMembers.remove p.kind id⟩ : EditStore F)
            (applyOpIndexed T (.deleteMemory ⟨id, env.ts⟩) (s.replayed T)) := by
          refine h.delete ⟨id, env.ts⟩ hp (fun x hx => ?_) ?_ rfl
            ⟨h.noneEmpty.1.remove _ _, h.noneEmpty.2.remove _ _⟩
            fun x hx => Maps.modifyAt_eq_none.mpr (h.fresh x hx)
          · simp only [said, LiveStore.forgotten, Maps.modifyAt_of_ne hx, SemanticIds.remove,
              Function.update_of_ne hx, KeywordIndex.docLengths_remove, Members.keysOf_remove,
              if_neg (Ne.symm hx)]
          · simp only [said, LiveStore.forgotten, Maps.modifyAt_self, SemanticIds.remove,
              Function.update_self, KeywordIndex.docLengths_remove, keysOf_remove_own hrealms,
              keysOf_remove_own hkinds, hp, hstate]
            simp [Said.present, MemoryPayload.edited, MemoryState.flags, hready]
        have hquiet := LiveStore.Quiet.logSide { s.toLiveStore with
            ctx := LiveStore.forgotten s.ctx id
            wal := s.wal ++ [.deleteMemory ⟨id, env.ts⟩] } env.invalidated
        obtain ⟨ops, hwal, hops⟩ := hquiet.wal
        have hreplayed := replayed_append (T := T) (s.wal ++ [.deleteMemory ⟨id, env.ts⟩]) ops
        rw [← hwal, replayed_append] at hreplayed
        unfold replayed
        rw [hp]
        refine Eq.subst (motive := Kept _ _) hreplayed.symm ?_
        exact hbase.quiet _ rfl rfl le_rfl (told_quiet hops _)
      | error e =>
        -- the log has a deletion that the store has not done, of a memory that was forgotten before
        rw [hsynced] at hsync
        obtain ⟨hdeleted, hcontent, hunworded, hunseen⟩ := hsync.resolve_left Bool.false_ne_true
        obtain rfl : deleted = true := by
          have hflags := congrArg Said.flags hsaid
          rw [said, hstate] at hflags
          exact (congrArg Prod.fst (Option.some.inj hflags)).symm.trans hdeleted
        have hgone : ({ s with wal := s.wal ++ [.deleteMemory ⟨id, env.ts⟩] } : EditStore F).said id =
            .present cfg.embedDim (p.kind, p.realm, []) true none none := by
          simp only [said, hp, hstate, hunworded, hunseen, hrealms, hkinds]
          simp [Said.present, MemoryPayload.edited, MemoryState.flags, hready, hdeleted, hcontent p hp]
        unfold replayed
        refine Eq.subst (motive := Kept _ _) (replayed_append (T := T) s.wal _).symm ?_
        exact h.delete (T := T) ⟨id, env.ts⟩ hp (fun _ _ => rfl) hgone
          (KeywordIndex.remove_of_none hunworded).symm h.noneEmpty h.fresh

/-! ## Runs -/

lemma Kept.call (hdim : 0 < cfg.embedDim) (h : s.Kept cfg.embedDim (s.replayed T)) {call : EditCall F}
    (hfaithful : Faithful T cfg s call) :
    (s.call T cfg call).1.Kept cfg.embedDim ((s.call T cfg call).1.replayed T) := by
  cases call with
  | putMemory => exact h.putMemory hdim hfaithful
  | updateMemoryContent => exact h.updateMemoryContent hfaithful
  | updateMemoryKind => exact h.updateMemoryKind hfaithful
  | setRealm id newRealm =>
    have hsame : (s.call T cfg (.setRealm id newRealm)).1 = s := h.setRealm_self hfaithful
    rw [hsame]
    exact h
  | forget id env => exact h.forget hfaithful

omit [F32 F] in
lemma kept_empty (embedDim : ℕ) (firstId : MemoryId) :
    (empty firstId : EditStore F).Kept embedDim .empty := by
  have hmembers : ∀ id, Members.keysOf (fun _ => none) id = ∅ := fun id =>
    Set.eq_empty_of_forall_notMem fun _ => Finset.notMem_empty id
  refine ⟨fun id => Or.inl ⟨?_, rfl⟩, .refl _, ⟨fun _ => nofun, fun _ => nofun⟩, fun _ _ => rfl⟩
  simp only [said, empty, hmembers]
  rfl

/-- The running store has what an open makes of its log. -/
structure Agrees (T : Casing) (embedDim : ℕ) (s : EditStore F) : Prop where
  /-- The kinds, realms and contents. -/
  edited : ∀ id, (s.ctx.payloads id).map (·.edited) =
    ((reopen T embedDim s.wal).ctx.payloads id).map (·.edited)
  embedPending : ∀ id, (s.ctx.states id).map (·.embedPending) =
    ((reopen T embedDim s.wal).ctx.states id).map (·.embedPending)
  postings : s.keywordIdx.postings = (reopen T embedDim s.wal).keywordIdx.postings
  semanticIds : ∀ id, (s.semanticIdx.dims id).isSome =
    ((reopen T embedDim s.wal).semanticIdx.dims id).isSome
  realmMembers : s.realmMembers = (reopen T embedDim s.wal).realmMembers
  kindMembers : s.kindMembers = (reopen T embedDim s.wal).kindMembers

/-- What an open finds of a vector. -/
def openDims (embedDim : ℕ) (c : IndexCtx F) (id : MemoryId) : Option ℕ :=
  if wrongDim embedDim c id then none else c.semanticIdx.dims id

omit [F32 F] in
/-- An open deletes nothing, and asks for the vectors that live memories lack. -/
lemma flags_reconcile (embedDim : ℕ) (c : IndexCtx F) (id : MemoryId) :
    ((reconcileEmbeddings embedDim c).ctx.states id).map (·.flags) =
      (told c id).flags.map fun flags => (flags.1, (!flags.1 &&
        (wrongDim embedDim c id || ((openDims embedDim c id).isNone &&
          (c.ctx.payloads id).any fun p => LiveStore.minEmbedChars ≤ p.content.length))) ||
            flags.2) := by
  refine (Option.map_map ..).trans (Eq.trans ?_ (Option.map_map ..).symm)
  refine congrArg (Option.map · _) (funext fun st => ?_)
  unfold openDims
  simp only [Function.comp_apply, MemoryState.flags]
  generalize (!st.deleted && _) = asked
  cases asked <;> rfl

omit [F32 F] in
/-- A vector that is not of a wrong length is of the right one. -/
lemma openDims_eq (embedDim : ℕ) (c : IndexCtx F) (id : MemoryId) :
    openDims embedDim c id = (c.semanticIdx.dims id).filter (· = embedDim) := by
  unfold openDims wrongDim
  cases c.semanticIdx.dims id with
  | none => rfl
  | some dim => by_cases hd : dim = embedDim <;> simp [hd, Option.filter_some]

/-- A store that is kept has what an open makes of its log. -/
lemma Kept.agrees (h : s.Kept embedDim (s.replayed T)) : s.Agrees T embedDim := by
  have hmembers : ∀ {members : Members} (part : String × String × Bytes → String),
      members.NoneEmpty → (∀ id, members.keysOf id =
        {name | (told (s.replayed T) id).flags.map (·.1) = some false ∧
          (told (s.replayed T) id).edited.map part = some name}) →
      members = buildMembers (part ·.edited) (HdcField.putIds s.wal)
        (reconcileEmbeddings embedDim (s.replayed T)).ctx := by
    intro members part hne hkeys
    refine (Members.eq_iff_keysOf hne (Members.noneEmpty_build _ _ _)).mpr fun id => ?_
    have hids : (reconcileEmbeddings embedDim (s.replayed T)).ctx.payloads id ≠ none →
        id ∈ HdcField.putIds s.wal := by
      intro hid
      change (applyAllIndexed T s.wal .empty).ctx.payloads id ≠ none at hid
      rw [ctx_applyAllIndexed] at hid
      have hempty : ∀ id, (ApplyCtx.empty : ApplyCtx F).payloads id ≠ none →
          id ∈ (∅ : Finset MemoryId) := fun _ hne => absurd rfl hne
      have hmem := HdcField.mem_ids_applyOps hempty s.wal id hid
      rwa [Finset.empty_union] at hmem
    have hlive : (reconcileEmbeddings embedDim (s.replayed T)).ctx.isLive id = true ↔
        (told (s.replayed T) id).flags.map (·.1) = some false := by
      have hfst := congrArg (Option.map Prod.fst) (flags_reconcile embedDim (s.replayed T) id)
      rw [Option.map_map, Option.map_map] at hfst
      rw [isLive_iff]
      exact iff_of_eq (congrArg (· = some false) hfst)
    have hpart : ((reconcileEmbeddings embedDim (s.replayed T)).ctx.payloads id).map (part ·.edited) =
        (told (s.replayed T) id).edited.map part := (Option.map_map ..).symm
    rw [Members.keysOf_build _ hids, hkeys]
    simp only [hlive, hpart]
  constructor
  · exact fun id => (h.good id).edited
  · intro id
    have hpending : ∀ states : Option (MemoryState F),
        states.map (·.embedPending) = (states.map (·.flags)).map Prod.snd := fun states => by
      cases states <;> rfl
    refine (hpending _).trans (Eq.trans ?_ (hpending _).symm)
    refine Eq.trans ?_
      (congrArg (Option.map Prod.snd) (flags_reconcile embedDim (s.replayed T) id)).symm
    change (s.said id).flags.map _ = _
    rcases h.good id with ⟨hsaid, htold⟩ | ⟨_, deleted, dim, _, hdim, hsaid, htold⟩
    · rw [hsaid, htold]
      rfl
    · have hdims : (s.replayed T).semanticIdx.dims id = dim := congrArg Told.dim htold
      rw [hsaid, htold]
      simp only [openDims, wrongDim, hdims, Said.present, Option.map_some, Bool.or_false]
      cases deleted with
      | true => rfl
      | false =>
        -- a live memory has a vector, so that only one of a wrong length is asked for again
        cases hwrong : dim.any (· ≠ embedDim) with
        | true => rfl
        | false => simp [hdim rfl]
  · exact h.keyword.postings
  · intro id
    exact congrArg Option.isSome
      ((h.good id).dim.trans (openDims_eq embedDim (s.replayed T) id).symm)
  · exact hmembers (·.2.1) h.noneEmpty.1 fun id => (h.good id).members.1
  · exact hmembers (·.1) h.noneEmpty.2 fun id => (h.good id).members.2

/-- After a run of faithful calls an open of the log makes what the running store has. -/
theorem edits_agree {cfg : WriteConfig F} (hdim : 0 < cfg.embedDim) (firstId : MemoryId)
    {calls : List (EditCall F)}
    (hall : Replayed.All (call T cfg) (Faithful T cfg) (empty firstId) calls) :
    (Replayed.run (call T cfg) (empty firstId) calls).1.Agrees T cfg.embedDim := by
  refine Kept.agrees ?_
  exact Replayed.invariant_run (fun s => s.Kept cfg.embedDim (s.replayed T))
    (fun s c h hfaithful => h.call hdim hfaithful) (kept_empty cfg.embedDim firstId) hall

/-! ## Edits of one memory -/

/-- Store a memory, and index all of it. -/
def sampleStored (content : Bytes) (embedding : List ℚ) (ts : ℤ) : EditCall ℚ :=
  .putMemory ⟨"insight", "work", content, embedding, 1, 1 / 1000, 0, [], none, none⟩
    ⟨ts, none, [], none, none, [], [], .ok (), [], .ok [], fun _ => ⟨[], .ok ()⟩⟩ .none []

/-- What a memory is after some calls, and after an open behind them. -/
def sampleEdited (calls : List (EditCall ℚ)) : EditStore ℚ × IndexCtx ℚ :=
  let s := (Replayed.run (call .ascii sampleConfig) (empty 1) calls).1
  (s, reopen .ascii sampleConfig.embedDim s.wal)

/-- An open does not find a new realm; it finds a new kind in the members, a short memory without a
vector waiting for one, and the vector of a memory that waits for it in the live store. -/
theorem edits_disagree :
    ¬(sampleEdited [sampleStored [104, 105] [1, 1] 5, .setRealm 1 "home"]).1.Agrees .ascii 2 ∧
    ¬(sampleEdited [sampleStored [104, 105] [1, 1] 5,
      .updateMemoryKind ⟨1, "wisdom", 6⟩ (.ok ())]).1.Agrees .ascii 2 ∧
    ¬(sampleEdited [sampleStored [104, 105] [] 5]).1.Agrees .ascii 2 ∧
    ¬(sampleEdited [sampleStored (List.replicate 20 104) [] 5,
      .updateMemoryContent ⟨1, [104, 105], [1, 1], 6⟩ (.ok ())]).1.Agrees .ascii 2 := by
  refine ⟨fun h => ?_, fun h => ?_, fun h => ?_, fun h => ?_⟩
  · exact absurd (h.edited 1) (by decide +kernel)
  · exact absurd (congrFun h.kindMembers "insight") (by decide +kernel)
  · exact absurd (h.embedPending 1) (by decide +kernel)
  · exact absurd (h.embedPending 1) (by decide +kernel)

/-- Two memories are stored, one waits for its vector, and the other gets a new content and is
forgotten. -/
theorem edits_agree_sample :
    (sampleEdited [sampleStored (List.replicate 20 104) [] 5, sampleStored [104, 105] [1, 1] 6,
      .updateMemoryContent ⟨2, [104, 111], [], 7⟩ (.ok ()),
      .updateMemoryKind ⟨1, "insight", 8⟩ (.ok ()), .setRealm 1 "work",
      .forget 2 ⟨9, .ok (), .ok (), []⟩]).1.Agrees .ascii 2 := by
  have hdim : 0 < sampleConfig.embedDim := by decide
  refine edits_agree (T := .ascii) hdim 1
    ⟨fun _ => ⟨fun _ => ?_, .refl _⟩, fun _ => ⟨fun hnil => ?_, .refl _⟩, fun _ _ _ => ⟨?_, ?_⟩,
      fun _ _ => ?_, ?_, fun _ => ?_, trivial⟩
  · decide
  · exact absurd hnil (List.cons_ne_nil _ _)
  · have htext : Lossy.fromUtf8Lossy [104, 111] = decodeText [104, 111] := by decide +kernel
    exact htext ▸ .refl _
  · exact fun hne => absurd rfl hne
  · decide +kernel
  · unfold Faithful
    decide +kernel
  · decide +kernel

end EditStore

end ChittaField
