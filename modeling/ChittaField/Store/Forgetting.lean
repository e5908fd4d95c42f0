import ChittaField.Lib.Listings
import ChittaField.Memory.Mentions
import ChittaField.Store.Replay

/-!
# What is left of a forgotten memory

A deletion marks the memory, empties its content and takes it from the indexes.  Two things bring it
back.  The index of times, the realms and the kinds are searched by what the payload says at the
deletion, and the memory may be listed under something else.  And an operation behind the deletion
may write to an index without looking at the mark.

`gone_iff` says exactly which sequences of operations leave nothing of a memory.
-/

namespace ChittaField

open Listings

variable {F : Type}

/-- The memory is marked as deleted and has no content, and nothing mentions it. -/
structure Gone (c : IndexCtx F) (m : MemoryId) : Prop where
  deleted : Forgotten c.ctx m
  content : ∃ p, c.ctx.payloads m = some p ∧ p.content = []
  semantic : c.semanticIdx.dims m = none
  keyword : c.keywordIdx.Lacks m
  temporal : ∀ tsMs, c.timeIdx (tsMs, m) = none
  artifact : c.artifactIdx.Lacks m
  realms : c.realmMembers.keysOf m = ∅
  kinds : c.kindMembers.keysOf m = ∅
  edges : c.ctx.assocEdges m = none ∧ ∀ src, ¬Points c.ctx.assocEdges src m
  coactivation : ∀ key, c.ctx.coactivationStats key ≠ none → key.1 ≠ m ∧ key.2 ≠ m

variable [F32 F] {m : MemoryId}

lemma ctx_applyOpIndexed {T : Casing} (op : Op F) (c : IndexCtx F) :
    (applyOpIndexed T op c).ctx = applyOp op c.ctx := by
  cases op with
  | deleteMemory d =>
    simp only [applyOpIndexed]
    cases c.ctx.payloads d.memoryId <;> rfl
  | _ => rfl

/-! ## What a memory is listed under -/

/-- An index that a put writes to and a deletion searches by what the payload says. -/
structure Listing (F κ : Type) where
  /-- What a put lists the memory under. -/
  entered : PutPayloadOp F → κ
  /-- What the payload says. -/
  key : MemoryPayload F → κ
  /-- What a new kind makes the payload say. -/
  renamed : UpdateMemoryKindOp → Option κ
  keys : IndexCtx F → MemoryId → Set κ

namespace Listing

def times : Listing F ℤ where
  entered put := if put.authoredAtMs = 0 then put.createdAtMs else put.authoredAtMs
  key := (·.authoredAtMs)
  renamed _ := none
  keys c m := {tsMs | c.timeIdx (tsMs, m) ≠ none}

def realms : Listing F String where
  entered := (·.realm)
  key := (·.realm)
  renamed _ := none
  keys c := c.realmMembers.keysOf

def kinds : Listing F String where
  entered := (·.kind)
  key := (·.kind)
  renamed u := some u.newKind
  keys c := c.kindMembers.keysOf

variable {κ : Type}

/-- What an operation is for the listing of a memory. -/
def event (L : Listing F κ) (m : MemoryId) : Op F → Option (Event κ)
  | .putPayload put =>
    if put.memoryId = m then some (.enter (L.entered put) (L.key (.ofPut put))) else none
  | .updateMemoryKind u => if u.memoryId = m then (L.renamed u).map .rename else none
  | .deleteMemory d => if d.memoryId = m then some .drop else none
  | _ => none

/-- Every put lists the memory under something that the payload says at some later deletion. -/
def ClearedBy (L : Listing F κ) (m : MemoryId) (ops : List (Op F)) : Prop :=
  Cleared none (ops.filterMap (L.event m))

instance [DecidableEq κ] (L : Listing F κ) (m : MemoryId) (ops : List (Op F)) :
    Decidable (L.ClearedBy m ops) :=
  inferInstanceAs (Decidable (Cleared none _))

def register (L : Listing F κ) (c : IndexCtx F) (m : MemoryId) : Register κ :=
  ⟨L.keys c m, (c.ctx.payloads m).map L.key⟩

/-- How operations change the listing. -/
structure Lawful (L : Listing F κ) (T : Casing) : Prop where
  empty : ∀ m, L.keys .empty m = ∅
  put : ∀ put c m, L.keys (applyOpIndexed T (.putPayload put) c) m =
    if put.memoryId = m then insert (L.entered put) (L.keys c m) else L.keys c m
  delete : ∀ d c m, L.keys (applyOpIndexed T (.deleteMemory d) c) m =
    if d.memoryId = m then {k ∈ L.keys c m | (c.ctx.payloads m).map L.key ≠ some k}
    else L.keys c m
  other : ∀ op c m, (∀ put, op ≠ .putPayload put) → (∀ d, op ≠ .deleteMemory d) →
    L.keys (applyOpIndexed T op c) m = L.keys c m
  key_content : ∀ p content embedding,
    L.key { p with content := content, embedding := embedding } = L.key p
  key_kind : ∀ p u, L.key { p with kind := u.newKind } = (L.renamed u).getD (L.key p)

variable {T : Casing} {L : Listing F κ}

/-- Only a put and a deletion change what memories are listed under. -/
lemma listings_applyOpIndexed {op : Op F} (hput : ∀ put, op ≠ .putPayload put)
    (hdel : ∀ d, op ≠ .deleteMemory d) (c : IndexCtx F) :
    (applyOpIndexed T op c).timeIdx = c.timeIdx ∧
      (applyOpIndexed T op c).realmMembers = c.realmMembers ∧
      (applyOpIndexed T op c).kindMembers = c.kindMembers := by
  cases op with
  | putPayload put => exact absurd rfl (hput put)
  | deleteMemory d => exact absurd rfl (hdel d)
  | _ => exact ⟨rfl, rfl, rfl⟩

lemma lawful_times : (times : Listing F ℤ).Lawful T where
  empty m := by simp [times, IndexCtx.empty]
  put put c m := by
    ext tsMs
    by_cases hm : put.memoryId = m
    · subst hm
      simp only [times, applyOpIndexed, TemporalIndex.upsert, if_pos]
      generalize (if put.authoredAtMs = 0 then put.createdAtMs else put.authoredAtMs) = entered
      by_cases hts : tsMs = entered <;> simp [hts]
    · simp [times, applyOpIndexed, TemporalIndex.upsert, hm, Ne.symm hm]
  delete d c m := by
    ext tsMs
    by_cases hm : d.memoryId = m
    · subst hm
      simp only [applyOpIndexed]
      cases hp : c.ctx.payloads d.memoryId with
      | none => simp [times]
      | some p =>
        simp [times, TemporalIndex.remove, Function.update_apply, and_comm, eq_comm]
    · simp only [applyOpIndexed, if_neg hm]
      cases hp : c.ctx.payloads d.memoryId with
      | none => rfl
      | some p => simp [times, TemporalIndex.remove, Ne.symm hm]
  other op c m hput hdel := by simp only [times, (listings_applyOpIndexed hput hdel c).1]
  key_content _ _ _ := rfl
  key_kind _ _ := rfl

omit [F32 F] in
/-- The members of a realm, and of a kind, change alike. -/
lemma keysOf_deleteMember {members members' : Members} {id : MemoryId}
    (payloads : MemoryId → Option (MemoryPayload F)) (key : MemoryPayload F → String)
    (h : members' = (payloads id).elim members fun p => members.remove (key p) id) (m : MemoryId) :
    members'.keysOf m = if id = m then {k ∈ members.keysOf m | (payloads m).map key ≠ some k}
      else members.keysOf m := by
  subst h
  by_cases hm : id = m
  · subst hm
    cases payloads id with
    | none => simp
    | some p =>
      rw [Option.elim_some, Members.keysOf_remove]
      simp only [Option.map_some, ne_eq, Option.some.injEq, eq_comm]
  · cases payloads id <;> simp [Members.keysOf_remove, hm]

lemma lawful_realms : (realms : Listing F String).Lawful T where
  empty m := by simp [realms, IndexCtx.empty, Members.keysOf]
  put put c m := Members.keysOf_insert _ _ _ _
  delete d c m := by
    refine keysOf_deleteMember c.ctx.payloads (·.realm) ?_ m
    simp only [applyOpIndexed]
    cases c.ctx.payloads d.memoryId <;> rfl
  other op c m hput hdel := congrArg (·.keysOf m) (listings_applyOpIndexed hput hdel c).2.1
  key_content _ _ _ := rfl
  key_kind _ _ := rfl

lemma lawful_kinds : (kinds : Listing F String).Lawful T where
  empty m := by simp [kinds, IndexCtx.empty, Members.keysOf]
  put put c m := Members.keysOf_insert _ _ _ _
  delete d c m := by
    refine keysOf_deleteMember c.ctx.payloads (·.kind) ?_ m
    simp only [applyOpIndexed]
    cases c.ctx.payloads d.memoryId <;> rfl
  other op c m hput hdel := congrArg (·.keysOf m) (listings_applyOpIndexed hput hdel c).2.2
  key_content _ _ _ := rfl
  key_kind _ _ := rfl

/-- An operation does to the register of a memory what its event does. -/
lemma Lawful.register_apply (h : L.Lawful T) (op : Op F) (c : IndexCtx F) (m : MemoryId) :
    L.register (applyOpIndexed T op c) m =
      (L.event m op).elim (L.register c m) (L.register c m).step := by
  have hcurrent : ((applyOpIndexed T op c).ctx.payloads m).map L.key = ((stored m op).map L.key).or
      ((c.ctx.payloads m).map fun p => L.key (rewritten m op p)) := by
    rw [ctx_applyOpIndexed, payloads_applyOp, Option.map_or, Option.map_map]
    rfl
  have hother : (∀ put, op ≠ .putPayload put) → (∀ d, op ≠ .deleteMemory d) →
      stored m op = none → L.event m op = none → (∀ p, L.key (rewritten m op p) = L.key p) →
        L.register (applyOpIndexed T op c) m =
          (L.event m op).elim (L.register c m) (L.register c m).step := by
    intro hput hdel hstored hevent hkey
    rw [hevent, Option.elim_none, register, register, h.other op c m hput hdel, hcurrent, hstored]
    simp only [hkey]
    rfl
  cases op with
  | putPayload put =>
    rw [register, h.put, hcurrent, event]
    by_cases hm : put.memoryId = m
    · rw [stored, if_pos hm, if_pos hm, if_pos hm, Option.elim_some, Option.map_some,
        h.key_content (.ofPut put) (MemoryPayload.ofPut put).content []]
      rfl
    · rw [stored, if_neg hm, if_neg hm, if_neg hm]
      rfl
  | deleteMemory d =>
    have hkey : ∀ p, L.key (rewritten m (.deleteMemory d) p) = L.key p := by
      intro p
      rw [rewritten]
      split
      · exact h.key_content p [] p.embedding
      · rfl
    rw [register, h.delete, hcurrent, event]
    simp only [hkey]
    by_cases hm : d.memoryId = m
    · rw [if_pos hm, if_pos hm]
      rfl
    · rw [if_neg hm, if_neg hm]
      rfl
  | updateMemoryKind u =>
    rw [register, h.other (.updateMemoryKind u) c m (by rintro _ ⟨⟩) (by rintro _ ⟨⟩), hcurrent, event]
    by_cases hm : u.memoryId = m
    · simp only [rewritten, if_pos hm, h.key_kind]
      cases L.renamed u with
      | none => rfl
      | some k =>
        simp only [stored, Option.map_none, Option.none_or, Option.getD_some, Option.map_some,
          Option.elim_some, register, Register.step, Option.map_map]
        rfl
    · simp only [rewritten, if_neg hm]
      rfl
  | updateMemoryContent u =>
    refine hother (by rintro _ ⟨⟩) (by rintro _ ⟨⟩) rfl rfl fun p => ?_
    rw [rewritten]
    split
    · exact h.key_content p _ _
    · rfl
  | _ => exact hother (by rintro _ ⟨⟩) (by rintro _ ⟨⟩) rfl rfl fun _ => rfl

/-- Operations do to the register of a memory what their events do. -/
lemma Lawful.register_run (h : L.Lawful T) (ops : List (Op F)) (c : IndexCtx F) (m : MemoryId) :
    L.register (applyAllIndexed T ops c) m =
      (ops.filterMap (L.event m)).foldl Register.step (L.register c m) := by
  induction ops generalizing c with
  | nil => rfl
  | cons op ops ih =>
    rw [applyAllIndexed, List.foldl_cons, ← applyAllIndexed, ih, h.register_apply]
    cases hevent : L.event m op with
    | none => rw [List.filterMap_cons_none hevent, Option.elim_none]
    | some e => rw [List.filterMap_cons_some hevent, List.foldl_cons, Option.elim_some]

lemma Lawful.register_empty (h : L.Lawful T) (m : MemoryId) :
    L.register (.empty : IndexCtx F) m = ⟨∅, none⟩ := by
  rw [register, h.empty]
  rfl

/-- A memory is listed nowhere behind operations iff these clear it. -/
lemma Lawful.keys_run (h : L.Lawful T) (ops : List (Op F)) (m : MemoryId) :
    L.keys (applyAllIndexed T ops .empty) m = ∅ ↔ L.ClearedBy m ops := by
  change (L.register (applyAllIndexed T ops .empty) m).keys = ∅ ↔ _
  rw [h.register_run, h.register_empty]
  exact keys_run_new_eq_empty _

end Listing

/-! ## Behind a deletion -/

/-- An operation neither stores the memory again nor deletes it. -/
def Spares (m : MemoryId) : Op F → Prop
  | .putPayload put => put.memoryId ≠ m
  | .deleteMemory d => d.memoryId ≠ m
  | _ => True

/-- The content that an operation gives to a memory. -/
def contentOf (m : MemoryId) : Op F → Option Bytes
  | .updateMemoryContent u => if u.memoryId = m then some u.content else none
  | _ => none

/-- The last content that operations give to a memory. -/
def lastContent (m : MemoryId) (ops : List (Op F)) : Option Bytes :=
  (ops.filterMap (contentOf m)).getLast?

/-- An operation makes edges of a memory. -/
def Connects (m : MemoryId) : Op F → Prop
  | .addAssocEdge e => e.src = m
  | .strengthenAssocEdge e => e.src = m ∨ e.dst = m
  | .recordRecallBatch b => m ∈ b.memoryIds ∧ 2 ≤ b.memoryIds.length
  | _ => False

/-- An operation deletes a memory. -/
def deletes (m : MemoryId) : Op F → Bool
  | .deleteMemory d => d.memoryId = m
  | _ => false

/-- Every memory that gets an edge to this one is deleted later. -/
def Cut (m : MemoryId) : List (Op F) → Prop
  | [] => True
  | .addAssocEdge e :: ops => (e.dst = m → ops.any (deletes e.src) = true) ∧ Cut m ops
  | _ :: ops => Cut m ops

/-- Operations behind a deletion leave nothing of the memory: the last content is empty, there is no
vector, and no edges are left. -/
structure Leaves (m : MemoryId) (ops : List (Op F)) : Prop where
  content : (lastContent m ops).getD [] = []
  vector : ∀ u, Op.updateMemoryContent u ∈ ops → u.memoryId = m → u.embedding = []
  connects : ∀ op ∈ ops, ¬Connects m op
  cut : Cut m ops

variable {T : Casing} {ops : List (Op F)} {c : IndexCtx F}

lemma applyAllIndexed_append (ops ops' : List (Op F)) (c : IndexCtx F) :
    applyAllIndexed T (ops ++ ops') c = applyAllIndexed T ops' (applyAllIndexed T ops c) :=
  List.foldl_append ..

/-- What every operation keeps, operations keep. -/
lemma applyAllIndexed_keeps {P : IndexCtx F → Prop} (hstep : ∀ op ∈ ops, ∀ c, P c →
    P (applyOpIndexed T op c)) (h : P c) : P (applyAllIndexed T ops c) :=
  List.foldlRecOn ops _ h fun c h op hop => hstep op hop c h

/-- The content behind operations is the last one. -/
lemma content_run (hops : ∀ op ∈ ops, Spares m op) {p : MemoryPayload F}
    (h : c.ctx.payloads m = some p) : ∃ p', (applyAllIndexed T ops c).ctx.payloads m = some p' ∧
      p'.content = (lastContent m ops).getD p.content := by
  induction ops using List.reverseRecOn with
  | nil => exact ⟨p, h, rfl⟩
  | append_singleton ops op ih =>
    obtain ⟨p', hp', hcontent⟩ := ih (List.forall_mem_append.mp hops).1
    have hspares := hops op (List.mem_append_right _ (List.mem_singleton.mpr rfl))
    rw [applyAllIndexed_append, lastContent, List.filterMap_append, List.getLast?_append]
    change ∃ x, (applyOpIndexed T op (applyAllIndexed T ops c)).ctx.payloads m = some x ∧ _
    rw [ctx_applyOpIndexed, payloads_applyOp, hp']
    cases op with
    | putPayload put =>
      rw [stored, if_neg hspares]
      exact ⟨p', rfl, hcontent⟩
    | deleteMemory d =>
      refine ⟨_, rfl, ?_⟩
      rw [rewritten, if_neg hspares]
      exact hcontent
    | updateMemoryContent u =>
      refine ⟨_, rfl, ?_⟩
      by_cases hm : u.memoryId = m
      · simp [rewritten, contentOf, hm]
      · rw [rewritten, if_neg hm, hcontent, lastContent]
        simp [contentOf, hm]
    | updateMemoryKind u =>
      refine ⟨_, rfl, ?_⟩
      rw [rewritten]
      split <;> exact hcontent
    | _ => exact ⟨_, rfl, hcontent⟩

/-- The indexes of words and of artifacts stay consistent. -/
lemma consistent_run (ops : List (Op F))
    (h : c.keywordIdx.Consistent ∧ c.artifactIdx.Consistent) :
    (applyAllIndexed T ops c).keywordIdx.Consistent ∧
      (applyAllIndexed T ops c).artifactIdx.Consistent := by
  refine applyAllIndexed_keeps
    (P := fun c => c.keywordIdx.Consistent ∧ c.artifactIdx.Consistent) (fun op _ c h => ?_) h
  cases op with
  | putPayload put =>
    refine ⟨h.1.index _ _, foldl_keeps (fun a r ha => ?_) put.artifactRefs h.2⟩
    split
    · exact ha
    · exact ArtifactIndex.Consistent.associate ha _ _ _ _
  | deleteMemory d =>
    simp only [applyOpIndexed]
    cases c.ctx.payloads d.memoryId <;> exact ⟨h.1.remove _, h.2.removeMemory _⟩
  | updateMemoryContent u => exact ⟨h.1.index _ _, h.2⟩
  | _ => exact h

lemma decodeText_nil : decodeText [] = "" := by decide +kernel

/-- The index of words does not mention a memory whose last content is empty. -/
lemma keyword_run (hc : c.keywordIdx.Consistent ∧ c.artifactIdx.Consistent)
    (hops : ∀ op ∈ ops, Spares m op) (h : c.keywordIdx.Lacks m)
    (hlast : (lastContent m ops).getD [] = []) :
    (applyAllIndexed T ops c).keywordIdx.Lacks m := by
  induction ops using List.reverseRecOn with
  | nil => exact h
  | append_singleton ops op ih =>
    have hspares := hops op (List.mem_append_right _ (List.mem_singleton.mpr rfl))
    rw [lastContent, List.filterMap_append, List.getLast?_append] at hlast
    have hbefore : contentOf m op = none →
        (applyAllIndexed T ops c).keywordIdx.Lacks m := by
      intro hnone
      refine ih (List.forall_mem_append.mp hops).1 ?_
      rwa [List.filterMap_cons_none hnone] at hlast
    rw [applyAllIndexed_append]
    change (applyOpIndexed T op (applyAllIndexed T ops c)).keywordIdx.Lacks m
    cases op with
    | putPayload put => exact (hbefore rfl).index (Ne.symm hspares) _
    | deleteMemory d =>
      simp only [applyOpIndexed]
      cases (applyAllIndexed T ops c).ctx.payloads d.memoryId <;> exact (hbefore rfl).remove _
    | updateMemoryContent u =>
      by_cases hm : u.memoryId = m
      · have hcontent : u.content = [] := by
          simpa [contentOf, hm] using hlast
        change ((applyAllIndexed T ops c).keywordIdx.index T u.memoryId _).Lacks m
        rw [hcontent, decodeText_nil, KeywordIndex.index_of_wordless KeywordIndex.tokenize_empty, hm]
        exact (consistent_run ops hc).1.lacks_remove m
      · exact (hbefore (if_neg hm)).index (Ne.symm hm) _
    | _ => exact hbefore rfl

/-- A memory without a vector gets one from a new content with a vector only. -/
lemma semantic_run (hops : ∀ op ∈ ops, Spares m op) :
    (applyAllIndexed T ops c).semanticIdx.dims m = none ↔ c.semanticIdx.dims m = none ∧
      ∀ u, Op.updateMemoryContent u ∈ ops → u.memoryId = m → u.embedding = [] := by
  induction ops generalizing c with
  | nil => exact (and_iff_left fun _ h => (nomatch h)).symm
  | cons op ops ih =>
    have hspares := hops op List.mem_cons_self
    have hother : (∀ u, op ≠ .updateMemoryContent u) →
        (applyOpIndexed T op c).semanticIdx.dims m = c.semanticIdx.dims m →
          ((applyAllIndexed T (op :: ops) c).semanticIdx.dims m = none ↔
            c.semanticIdx.dims m = none ∧
              ∀ u, Op.updateMemoryContent u ∈ op :: ops → u.memoryId = m → u.embedding = []) := by
      intro hop hdims
      refine (ih (List.forall_mem_cons.mp hops).2).trans ?_
      rw [hdims]
      refine and_congr_right fun _ => forall_congr' fun u => ?_
      rw [List.mem_cons, or_iff_right (Ne.symm (hop u))]
    cases op with
    | putPayload put =>
      exact hother (fun _ => nofun) (Function.update_of_ne (Ne.symm hspares) ..)
    | deleteMemory d =>
      refine hother (fun _ => nofun) ?_
      simp only [applyOpIndexed]
      cases c.ctx.payloads d.memoryId <;> exact Function.update_of_ne (Ne.symm hspares) ..
    | updateMemoryContent u =>
      refine (ih (List.forall_mem_cons.mp hops).2).trans ?_
      have hdims : (applyOpIndexed T (.updateMemoryContent u) c).semanticIdx.dims m = none ↔
          c.semanticIdx.dims m = none ∧ (u.memoryId = m → u.embedding = []) := by
        simp only [applyOpIndexed, SemanticIds.upsert]
        by_cases hm : u.memoryId = m
        · by_cases he : u.embedding = [] <;> simp [hm, he]
        · split <;> simp [hm, Ne.symm hm]
      rw [hdims, and_assoc]
      refine and_congr_right fun _ => ?_
      constructor
      · rintro ⟨hu, hrest⟩ u' hmem
        rcases List.mem_cons.mp hmem with heq | hmem
        · cases heq
          exact hu
        · exact hrest u' hmem
      · exact fun hall =>
          ⟨hall u List.mem_cons_self, fun u' hmem => hall u' (List.mem_cons_of_mem _ hmem)⟩
    | _ => exact hother (fun _ => nofun) rfl

lemma artifact_run (hops : ∀ op ∈ ops, Spares m op) (h : c.artifactIdx.Lacks m) :
    (applyAllIndexed T ops c).artifactIdx.Lacks m := by
  refine applyAllIndexed_keeps (P := fun c => c.artifactIdx.Lacks m) (fun op hop c h => ?_) h
  have hspares := hops op hop
  cases op with
  | putPayload put =>
    refine foldl_keeps (P := fun a : ArtifactIndex F => a.Lacks m) (fun a r ha => ?_)
      put.artifactRefs h
    split
    · exact ha
    · exact ha.associate (Ne.symm hspares) ..
  | deleteMemory d =>
    simp only [applyOpIndexed]
    cases c.ctx.payloads d.memoryId <;> exact h.removeMemory _
  | _ => exact h

/-! ## Edges behind a deletion -/

lemma mem_pairs {α : Type} {l : List α} {p : α × α} (h : p ∈ pairs l) :
    p.1 ∈ l ∧ p.2 ∈ l ∧ 2 ≤ l.length := by
  induction l with
  | nil => cases h
  | cons x l ih =>
    rw [pairs, List.mem_append, List.mem_map] at h
    rcases h with ⟨y, hy, rfl⟩ | h
    · exact ⟨List.mem_cons_self, List.mem_cons_of_mem _ hy,
        Nat.succ_le_succ (List.length_pos_of_mem hy)⟩
    · obtain ⟨hfst, hsnd, hlen⟩ := ih h
      exact ⟨List.mem_cons_of_mem _ hfst, List.mem_cons_of_mem _ hsnd, hlen.trans (Nat.le_succ _)⟩

/-- A memory of a list with another is in a pair. -/
lemma exists_mem_pairs {α : Type} {l : List α} {x : α} (hx : x ∈ l) (hlen : 2 ≤ l.length) :
    ∃ p ∈ pairs l, p.1 = x ∨ p.2 = x := by
  cases l with
  | nil => cases hx
  | cons y l =>
    rw [pairs]
    rcases List.mem_cons.mp hx with rfl | hmem
    · obtain ⟨z, hz⟩ := List.exists_mem_of_length_pos (Nat.lt_of_succ_le (Nat.le_of_succ_le_succ hlen))
      exact ⟨(x, z), List.mem_append_left _ (List.mem_map_of_mem hz), .inl rfl⟩
    · exact ⟨(y, x), List.mem_append_left _ (List.mem_map_of_mem hmem), .inr rfl⟩

lemma strengthen_eq_none {edges : AssocEdges F} {src dst : MemoryId} (edgeType : EdgeType)
    (delta : F) : strengthenAssocEdgeMap edges src dst edgeType delta m = none ↔
      edges m = none ∧ src ≠ m ∧ dst ≠ m := by
  unfold strengthenAssocEdgeMap
  by_cases hdst : m = dst
  · simp [hdst]
  · by_cases hsrc : m = src
    · subst hsrc
      simp [Function.update_apply, hdst]
    · simp [hdst, hsrc, Ne.symm hdst, Ne.symm hsrc]

/-- A list of pairs leaves a memory without edges iff it is in none. -/
lemma coRetrieve_eq_none (b : RecordRecallBatchOp F) (l : List (MemoryId × MemoryId))
    (ctx : ApplyCtx F) : (l.foldl (ApplyCtx.coRetrieve b) ctx).assocEdges m = none ↔
      ctx.assocEdges m = none ∧ ∀ p ∈ l, p.1 ≠ m ∧ p.2 ≠ m := by
  induction l generalizing ctx with
  | nil => simp
  | cons p l ih =>
    rw [List.foldl_cons, ih, List.forall_mem_cons, ← and_assoc]
    exact and_congr_left fun _ => strengthen_eq_none _ _

omit [F32 F] in
/-- Changes of states leave the edges and the statistics alone. -/
lemma edges_foldl_modifyState {α : Type} {f : α → MemoryId} {g : α → MemoryState F → MemoryState F}
    (l : List α) (ctx : ApplyCtx F) :
    (l.foldl (fun ctx a => ctx.modifyState (f a) (g a)) ctx).assocEdges = ctx.assocEdges ∧
      (l.foldl (fun ctx a => ctx.modifyState (f a) (g a)) ctx).coactivationStats =
        ctx.coactivationStats := by
  induction l generalizing ctx with
  | nil => exact ⟨rfl, rfl⟩
  | cons a l ih => exact ih _

/-- Common retrievals of others lead no memory to this one. -/
lemma points_foldl_coRetrieve (b : RecordRecallBatchOp F) {l : List (MemoryId × MemoryId)}
    (hl : ∀ p ∈ l, p.1 ≠ m ∧ p.2 ≠ m) (ctx : ApplyCtx F) (src : MemoryId) :
    Points (l.foldl (ApplyCtx.coRetrieve b) ctx).assocEdges src m ↔
      Points ctx.assocEdges src m := by
  induction l generalizing ctx with
  | nil => exact Iff.rfl
  | cons p l ih =>
    rw [List.forall_mem_cons] at hl
    exact (ih hl.2 _).trans (points_strengthen _ _ hl.1.1 hl.1.2)

/-- No statistics are kept of a memory. -/
def Unpaired (ctx : ApplyCtx F) (m : MemoryId) : Prop :=
  ∀ key, ctx.coactivationStats key ≠ none → key.1 ≠ m ∧ key.2 ≠ m

lemma coactivation_foldl_coRetrieve (b : RecordRecallBatchOp F) {l : List (MemoryId × MemoryId)}
    (hl : ∀ p ∈ l, p.1 ≠ m ∧ p.2 ≠ m) {ctx : ApplyCtx F} (h : Unpaired ctx m) :
    Unpaired (l.foldl (ApplyCtx.coRetrieve b) ctx) m := by
  induction l generalizing ctx with
  | nil => exact h
  | cons p l ih =>
    rw [List.forall_mem_cons] at hl
    refine ih hl.2 fun key hkey => ?_
    by_cases hpair : key = (min p.1 p.2, max p.1 p.2)
    · subst hpair
      obtain ⟨hfst, hsnd⟩ := hl.1
      constructor
      · rcases min_choice p.1 p.2 with h | h <;> rw [h] <;> assumption
      · rcases max_choice p.1 p.2 with h | h <;> rw [h] <;> assumption
    · exact h key fun hnone => hkey ((Function.update_of_ne hpair ..).trans hnone)

omit [F32 F] in
lemma connects_recordRecallBatch (b : RecordRecallBatchOp F) :
    ¬Connects m (.recordRecallBatch b) ↔ ∀ p ∈ pairs b.memoryIds, p.1 ≠ m ∧ p.2 ≠ m := by
  constructor
  · intro h p hp
    obtain ⟨hfst, hsnd, hlen⟩ := mem_pairs hp
    exact ⟨fun heq => h ⟨heq ▸ hfst, hlen⟩, fun heq => h ⟨heq ▸ hsnd, hlen⟩⟩
  · rintro h ⟨hmem, hlen⟩
    obtain ⟨p, hp, hor⟩ := exists_mem_pairs hmem hlen
    exact hor.elim (h p hp).1 (h p hp).2

/-- What a memory without edges gets. -/
lemma assocEdges_applyOp {op : Op F} (hspares : Spares m op) (ctx : ApplyCtx F) :
    (applyOp op ctx).assocEdges m = none ↔ ctx.assocEdges m = none ∧ ¬Connects m op := by
  cases op with
  | updateStateBatch deltas =>
    rw [applyOp, (edges_foldl_modifyState deltas ctx).1]
    exact (and_iff_left not_false).symm
  | deleteMemory d =>
    have hne : m ≠ d.memoryId := Ne.symm hspares
    simp [applyOp, removeEdges, hne, Connects]
  | addAssocEdge e =>
    by_cases hm : m = e.src
    · simp [applyOp, Connects, hm]
    · simp [applyOp, Connects, hm, Ne.symm hm]
  | updateMemoryContent u =>
    simp only [applyOp]
    split <;> exact (and_iff_left not_false).symm
  | recordRecallBatch b =>
    rw [applyOp, coRetrieve_eq_none, (edges_foldl_modifyState b.memoryIds ctx).1,
      connects_recordRecallBatch]
  | strengthenAssocEdge e =>
    rw [Connects, not_or]
    exact strengthen_eq_none _ _
  | _ => exact (and_iff_left not_false).symm

/-- Which memories point to one that has no edges. -/
lemma points_applyOp {op : Op F} (hspares : Spares m op) (hconnects : ¬Connects m op)
    (ctx : ApplyCtx F) (src : MemoryId) : Points (applyOp op ctx).assocEdges src m ↔
      (Points ctx.assocEdges src m ∧ deletes src op = false) ∨
        ∃ e, op = .addAssocEdge e ∧ e.src = src ∧ e.dst = m := by
  have hsame : ∀ {edges : AssocEdges F}, (Points edges src m ↔ Points ctx.assocEdges src m) →
      deletes src op = false → (∀ e, op ≠ .addAssocEdge e) →
        (Points edges src m ↔ (Points ctx.assocEdges src m ∧ deletes src op = false) ∨
          ∃ e, op = .addAssocEdge e ∧ e.src = src ∧ e.dst = m) := by
    intro edges hedges hdeletes hadd
    rw [hedges, hdeletes, and_iff_left rfl]
    exact (or_iff_left fun ⟨e, he, _⟩ => hadd e he).symm
  cases op with
  | updateStateBatch deltas =>
    refine hsame ?_ rfl (by rintro _ ⟨⟩)
    rw [applyOp, (edges_foldl_modifyState deltas ctx).1]
  | deleteMemory d =>
    refine (points_removeEdges (Ne.symm hspares)).trans ?_
    rw [and_comm, deletes, decide_eq_false_iff_not, eq_comm]
    exact (or_iff_left (by rintro ⟨e, he, -⟩; cases he)).symm
  | addAssocEdge e =>
    refine (points_addEdge _).trans ?_
    have hkept : deletes src (.addAssocEdge e) = false := rfl
    rw [hkept, and_iff_left rfl]
    refine or_congr_right ⟨fun h => ⟨e, rfl, h.1.symm, h.2⟩, ?_⟩
    rintro ⟨e', he, hsrc, hdst⟩
    cases he
    exact ⟨hsrc.symm, hdst⟩
  | updateMemoryContent u =>
    refine hsame ?_ rfl (by rintro _ ⟨⟩)
    simp only [applyOp]
    split <;> exact Iff.rfl
  | recordRecallBatch b =>
    refine hsame ?_ rfl (by rintro _ ⟨⟩)
    rw [connects_recordRecallBatch] at hconnects
    rw [applyOp, points_foldl_coRetrieve b hconnects, (edges_foldl_modifyState b.memoryIds ctx).1]
  | strengthenAssocEdge e =>
    rw [Connects, not_or] at hconnects
    exact hsame (points_strengthen _ _ hconnects.1 hconnects.2) rfl (by rintro _ ⟨⟩)
  | _ => exact hsame Iff.rfl rfl (by rintro _ ⟨⟩)

/-- The statistics get a memory by a common retrieval only. -/
lemma coactivation_applyOp {op : Op F} (hconnects : ¬Connects m op) {ctx : ApplyCtx F}
    (h : Unpaired ctx m) : Unpaired (applyOp op ctx) m := by
  cases op with
  | updateStateBatch deltas =>
    rw [applyOp, Unpaired, (edges_foldl_modifyState deltas ctx).2]
    exact h
  | deleteMemory d =>
    intro key hkey
    simp only [applyOp] at hkey
    split at hkey
    · exact h key hkey
    · exact absurd rfl hkey
  | updateMemoryContent u =>
    simp only [applyOp]
    split <;> exact h
  | recordRecallBatch b =>
    rw [connects_recordRecallBatch] at hconnects
    rw [applyOp]
    refine coactivation_foldl_coRetrieve b hconnects ?_
    rw [Unpaired, (edges_foldl_modifyState b.memoryIds ctx).2]
    exact h
  | _ => exact h

lemma connects_run (hops : ∀ op ∈ ops, Spares m op) :
    (applyAllIndexed T ops c).ctx.assocEdges m = none ↔
      c.ctx.assocEdges m = none ∧ ∀ op ∈ ops, ¬Connects m op := by
  induction ops generalizing c with
  | nil => exact (and_iff_left fun _ h => (nomatch h)).symm
  | cons op ops ih =>
    rw [List.forall_mem_cons] at hops
    rw [List.forall_mem_cons, ← and_assoc, ← assocEdges_applyOp hops.1, ← ctx_applyOpIndexed]
    exact ih hops.2

/-- Nothing points to a memory behind operations iff all that points to it, and all that comes to
point to it, is deleted. -/
lemma points_run (hops : ∀ op ∈ ops, Spares m op) (hconnects : ∀ op ∈ ops, ¬Connects m op) :
    (∀ src, ¬Points (applyAllIndexed T ops c).ctx.assocEdges src m) ↔
      (∀ src, Points c.ctx.assocEdges src m → ops.any (deletes src) = true) ∧ Cut m ops := by
  induction ops generalizing c with
  | nil =>
    refine Iff.trans ?_ (and_iff_left trivial).symm
    exact forall_congr' fun src => by simp [applyAllIndexed]
  | cons op ops ih =>
    rw [List.forall_mem_cons] at hops hconnects
    refine (ih (c := applyOpIndexed T op c) hops.2 hconnects.2).trans ?_
    rw [ctx_applyOpIndexed]
    simp only [points_applyOp hops.1 hconnects.1, List.any_cons, Bool.or_eq_true]
    have hcut : Cut m (op :: ops) ↔
        (∀ e, op = .addAssocEdge e → e.dst = m → ops.any (deletes e.src) = true) ∧ Cut m ops := by
      cases op with
      | addAssocEdge e =>
        refine and_congr_left fun _ => ⟨fun h e' he' => ?_, fun h => h e rfl⟩
        cases he'
        exact h
      | _ => exact (and_iff_right (fun _ => nofun)).symm
    rw [hcut, ← and_assoc]
    refine and_congr_left fun _ => ⟨fun h => ⟨fun src hpoints => ?_, ?_⟩, ?_⟩
    · cases hdeletes : deletes src op with
      | true => exact .inl rfl
      | false => exact .inr (h src (.inl ⟨hpoints, hdeletes⟩))
    · exact fun e he hdst => h e.src (.inr ⟨e, he, rfl, hdst⟩)
    · rintro ⟨hold, hnew⟩ src (⟨hpoints, hdeletes⟩ | ⟨e, he, rfl, hdst⟩)
      · refine (hold src hpoints).resolve_left ?_
        rw [hdeletes]
        exact Bool.false_ne_true
      · exact hnew e he hdst

lemma coactivation_run (hconnects : ∀ op ∈ ops, ¬Connects m op) (h : Unpaired c.ctx m) :
    Unpaired (applyAllIndexed T ops c).ctx m := by
  refine applyAllIndexed_keeps (P := fun c => Unpaired c.ctx m) (fun op hop c h => ?_) h
  rw [ctx_applyOpIndexed]
  exact coactivation_applyOp (hconnects op hop) h

/-! ## A deletion and what follows -/

/-- A memory has a state and a payload. -/
def Stored (c : IndexCtx F) (m : MemoryId) : Prop :=
  c.ctx.states m ≠ none ∧ c.ctx.payloads m ≠ none

lemma Stored.applyOpIndexed (h : Stored c m) (op : Op F) :
    Stored (applyOpIndexed T op c) m := by
  simp only [Stored, ctx_applyOpIndexed, ← Option.isSome_iff_ne_none] at h ⊢
  have hknows := congrFun (knows_applyOp op c.ctx) m
  rw [ApplyCtx.knows, learn, ApplyCtx.knows, h.1, Bool.true_or] at hknows
  rw [isSome_payloads_applyOp, h.2, Bool.true_or]
  exact ⟨hknows, rfl⟩

/-- A put stores a memory for good. -/
lemma stored_run {put : PutPayloadOp F} (hput : Op.putPayload put ∈ ops) :
    Stored (applyAllIndexed T ops c) put.memoryId := by
  obtain ⟨before, after, rfl⟩ := List.append_of_mem hput
  rw [applyAllIndexed_append]
  have hnew : Stored (applyOpIndexed T (.putPayload put) (applyAllIndexed T before c))
      put.memoryId := by
    simp [Stored, ctx_applyOpIndexed, applyOp]
  change Stored (applyAllIndexed T after (applyOpIndexed T _ _)) put.memoryId
  exact applyAllIndexed_keeps (P := fun c => Stored c put.memoryId)
    (fun op _ c h => h.applyOpIndexed op) hnew

/-- A deletion of a memory leaves what it is listed under elsewhere, and nothing else. -/
lemma delete_spec (hc : c.keywordIdx.Consistent ∧ c.artifactIdx.Consistent) (d : DeleteMemoryOp)
    (hstate : c.ctx.states d.memoryId ≠ none) {p : MemoryPayload F}
    (hp : c.ctx.payloads d.memoryId = some p) :
    let c' := applyOpIndexed T (.deleteMemory d) c
    Forgotten c'.ctx d.memoryId ∧ c'.ctx.payloads d.memoryId = some { p with content := [] } ∧
      c'.semanticIdx.dims d.memoryId = none ∧ c'.keywordIdx.Lacks d.memoryId ∧
        c'.artifactIdx.Lacks d.memoryId ∧ c'.ctx.assocEdges d.memoryId = none ∧
          (∀ src, ¬Points c'.ctx.assocEdges src d.memoryId) ∧ Unpaired c'.ctx d.memoryId := by
  intro c'
  have hctx : c'.ctx = applyOp (.deleteMemory d) c.ctx := ctx_applyOpIndexed _ _
  obtain ⟨st, hst⟩ := Option.ne_none_iff_exists'.mp hstate
  have hindexes : c'.semanticIdx.dims d.memoryId = none ∧ c'.keywordIdx.Lacks d.memoryId ∧
      c'.artifactIdx.Lacks d.memoryId := by
    simp only [c', applyOpIndexed, hp]
    exact ⟨Function.update_self .., hc.1.lacks_remove _, hc.2.lacks_removeMemory _⟩
  rw [hctx]
  refine ⟨⟨{ st with deleted := true }, ?_, rfl⟩, ?_, hindexes.1, hindexes.2.1, hindexes.2.2,
    if_pos rfl, fun src hpoints => ?_, fun key hkey => ?_⟩
  · exact Maps.modifyAt_self.trans (congrArg (Option.map _) hst)
  · rw [payloads_applyOp, hp, Option.map_some, rewritten, if_pos rfl]
    rfl
  · obtain ⟨es, hes, e, he, hdst⟩ := hpoints
    simp only [applyOp, removeEdges] at hes
    split at hes
    · cases hes
    · obtain ⟨es', -, rfl⟩ := Option.map_eq_some_iff.mp hes
      exact of_decide_eq_true (List.mem_filter.mp he).2 hdst
  · by_contra hnot
    exact hkey (if_neg hnot)

/-- Nothing of a deleted memory is left iff every put listed it under something that the payload says
at a later deletion, and the operations behind the last deletion leave nothing. -/
theorem gone_iff {before after : List (Op F)} {d : DeleteMemoryOp}
    (hput : ∃ put, Op.putPayload put ∈ before ∧ put.memoryId = d.memoryId)
    (hafter : ∀ op ∈ after, Spares d.memoryId op) :
    let ops := before ++ .deleteMemory d :: after
    Gone (applyAllIndexed T ops .empty) d.memoryId ↔
      (Listing.times.ClearedBy d.memoryId ops ∧ Listing.realms.ClearedBy d.memoryId ops ∧
        Listing.kinds.ClearedBy d.memoryId ops) ∧ Leaves d.memoryId after := by
  intro ops
  obtain ⟨put, hmem, hid⟩ := hput
  set c := applyAllIndexed T before (.empty : IndexCtx F)
  have hc := consistent_run (T := T) before
    (c := .empty) ⟨KeywordIndex.consistent_new, ArtifactIndex.consistent_new⟩
  obtain ⟨hstate, hpayload⟩ := stored_run (T := T) (c := .empty) hmem
  rw [hid] at hstate hpayload
  obtain ⟨p, hp⟩ := Option.ne_none_iff_exists'.mp hpayload
  obtain ⟨hdeleted, hcontent, hsemantic, hkeyword, hartifact, hedges, hpoints, hcoactivation⟩ :=
    delete_spec (T := T) hc d hstate hp
  have hrun : applyAllIndexed T ops .empty =
      applyAllIndexed T after (applyOpIndexed T (.deleteMemory d) c) :=
    applyAllIndexed_append before _ _
  obtain ⟨p', hp', hlast⟩ := content_run (T := T) hafter hcontent
  have htimes := (Listing.lawful_times (F := F) (T := T)).keys_run ops d.memoryId
  have hrealms := (Listing.lawful_realms (F := F) (T := T)).keys_run ops d.memoryId
  have hkinds := (Listing.lawful_kinds (F := F) (T := T)).keys_run ops d.memoryId
  rw [← htimes, ← hrealms, ← hkinds, hrun]
  have hempty : (∀ tsMs, (applyAllIndexed T after
      (applyOpIndexed T (.deleteMemory d) c)).timeIdx (tsMs, d.memoryId) = none) ↔
      Listing.times.keys (applyAllIndexed T after (applyOpIndexed T (.deleteMemory d) c))
        d.memoryId = ∅ := by
    rw [Set.eq_empty_iff_forall_notMem]
    exact forall_congr' fun _ => not_not.symm
  constructor
  · intro h
    obtain ⟨p'', hp'', hnil⟩ := h.content
    rw [hp', Option.some.injEq] at hp''
    have hconnects := ((connects_run hafter).mp h.edges.1).2
    exact ⟨⟨hempty.mp h.temporal, h.realms, h.kinds⟩, by rw [← hlast, hp'', hnil],
      ((semantic_run hafter).mp h.semantic).2, hconnects,
      ((points_run hafter hconnects).mp h.edges.2).2⟩
  · rintro ⟨⟨htemporal, hrealm, hkind⟩, h⟩
    refine ⟨?_, ⟨p', hp', hlast.trans h.content⟩, (semantic_run hafter).mpr ⟨hsemantic, h.vector⟩,
      ?_, hempty.mpr htemporal, artifact_run hafter hartifact, hrealm, hkind,
      ⟨(connects_run hafter).mpr ⟨hedges, h.connects⟩,
        (points_run hafter h.connects).mpr ⟨fun src hsrc => absurd hsrc (hpoints src), h.cut⟩⟩,
      coactivation_run h.connects hcoactivation⟩
    · refine applyAllIndexed_keeps (P := fun c => Forgotten c.ctx d.memoryId) (fun op _ c h => ?_)
        hdeleted
      rw [ctx_applyOpIndexed]
      exact h.applyOp op
    · have hconsistent := consistent_run (T := T) [.deleteMemory d] hc
      exact keyword_run hconsistent hafter hkeyword h.content

/-- A memory that says when it was written. -/
def sampleDated (id : MemoryId) : PutPayloadOp ℚ :=
  ⟨id, 0, [], 1, 1, "episode", "a", [104, 105], "none", [1], [], none, none, none, "", 0⟩

/-- A new content behind the deletion, a new kind before it, or a put without a date leave something
of the memory. -/
theorem not_gone :
    ¬Gone (applyAllIndexed .ascii ([.putPayload (sampleDated 1)] ++ .deleteMemory ⟨1, 2⟩ ::
      [.updateMemoryContent ⟨1, [104, 105], [], 3⟩]) .empty) 1 ∧
    ¬Gone (applyAllIndexed .ascii ([.putPayload (sampleDated 1), .updateMemoryKind ⟨1, "wisdom", 2⟩]
      ++ .deleteMemory ⟨1, 3⟩ :: []) .empty) 1 ∧
    ¬Gone (applyAllIndexed .ascii ([.putPayload { sampleDated 1 with authoredAtMs := 0 }] ++
      .deleteMemory ⟨1, 2⟩ :: []) .empty) 1 := by
  refine ⟨fun h => ?_, fun h => ?_, fun h => ?_⟩
  · obtain ⟨p, hp, hcontent⟩ := h.content
    cases hp
    cases hcontent
  · have hmem : "episode" ∈ (∅ : Set String) := by
      rw [← h.kinds, Members.keysOf, Set.mem_ofPred_eq]
      decide +kernel
    exact hmem
  · have htime := h.temporal 1
    cases htime

/-- Behind the deletion a new content comes and goes, and so does a memory with an edge. -/
theorem gone_sample :
    Gone (applyAllIndexed .ascii ([.putPayload (sampleDated 1), .putPayload (sampleDated 2),
        .addAssocEdge ⟨1, 2, .supports, 1⟩, .updateMemoryKind ⟨1, "wisdom", 2⟩,
        .updateMemoryKind ⟨1, "episode", 3⟩] ++ .deleteMemory ⟨1, 4⟩ ::
      [.updateMemoryContent ⟨1, [104, 105], [], 5⟩, .addAssocEdge ⟨2, 1, .supports, 1⟩,
        .updateMemoryContent ⟨1, [], [], 6⟩, .deleteMemory ⟨2, 7⟩]) .empty) 1 := by
  refine (gone_iff ⟨sampleDated 1, List.mem_cons_self, rfl⟩ ?_).mpr
    ⟨⟨by decide, by decide, by decide⟩, rfl, ?_, ?_, ?_⟩
  · simp [Spares]
  · simp
  · simp [Connects]
  · simp [Cut, deletes]

end ChittaField
