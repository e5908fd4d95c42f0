import ChittaField.Organs.Hdc
import ChittaField.Store.Replay

/-!
# The hyperdimensional index along a run

An index mirrors some memories if it has the vectors of just these, and each in its realm only.  An
insertion of a new memory, a removal and a rebuild say what the index mirrors behind them.

The index in use mirrors the live memories along every run in which nothing changes them behind its
back: no content or realm is replaced by one that would be indexed otherwise, operations of peers
leave the live memories as they are, and an open that loads a file finds the memories that the file
was written with.
-/

namespace ChittaField

variable {F : Type}

/-! ## What an index mirrors -/

namespace HdcSidecar

/-- The index has the vectors of some memories, and each memory in its realm only. -/
structure Mirrors (h : HdcSidecar) (view : MemoryId → Option (HdcVec × String)) : Prop where
  memories : ∀ id, h.memories id = (view id).map Prod.fst
  ids : ∀ id, id ∈ h.ids ↔ h.memories id ≠ none
  members : ∀ realm id, id ∈ (h.realmMembers realm).getD ∅ ↔ ∃ hv, view id = some (hv, realm)

/-- Two indexes find the same memories. -/
structure SameIndex (a b : HdcSidecar) : Prop where
  memories : b.memories = a.memories
  members : ∀ realm, (b.realmMembers realm).getD ∅ = (a.realmMembers realm).getD ∅

variable {h h' : HdcSidecar} {view : MemoryId → Option (HdcVec × String)}

lemma Mirrors.same (hm : h.Mirrors view) (hm' : h'.Mirrors view) : h.SameIndex h' where
  memories := funext fun id => (hm'.memories id).trans (hm.memories id).symm
  members realm := Finset.ext fun id => (hm'.members realm id).trans (hm.members realm id).symm

end HdcSidecar

namespace HdcStore

open HdcSidecar

variable {h : HdcStore} {view : MemoryId → Option (HdcVec × String)} {T : Casing}

lemma mirrors_new (mutations : ℕ) :
    (⟨⟨fun _ => none, ∅, fun _ => none, fun _ => none⟩, mutations⟩ : HdcStore).Mirrors
      fun _ => none :=
  ⟨fun _ => rfl, fun id => by simp, fun realm id => by simp⟩

/-- An insertion of a memory that the index does not have. -/
lemma insert_mirrors (hm : h.Mirrors view) {id : MemoryId} (hnew : view id = none)
    (text realm : String) :
    (h.insert T id text realm).Mirrors
      (Function.update view id (some (Hdc.encode T text, realm))) := by
  refine ⟨fun x => ?_, fun x => ?_, fun r x => ?_⟩
  · by_cases hx : x = id
    · subst hx
      simp [HdcStore.insert]
    · simp [HdcStore.insert, hx, hm.memories]
  · by_cases hx : x = id
    · subst hx
      simp [HdcStore.insert]
    · simp [HdcStore.insert, hx, hm.ids]
  · have hother : ∀ r, id ∉ (h.realmMembers r).getD ∅ := by
      intro r hmem
      obtain ⟨hv, hview⟩ := (hm.members r id).mp hmem
      rw [hnew] at hview
      cases hview
    by_cases hr : r = realm
    · subst hr
      by_cases hx : x = id
      · subst hx
        simp [HdcStore.insert]
      · simp [HdcStore.insert, hx, hm.members]
    · by_cases hx : x = id
      · subst hx
        simp only [HdcStore.insert, Function.update_of_ne hr, Function.update_self]
        refine ⟨fun hmem => absurd hmem (hother r), ?_⟩
        rintro ⟨hv, heq⟩
        rw [Option.some.injEq, Prod.mk.injEq] at heq
        exact absurd heq.2.symm hr
      · simp [HdcStore.insert, hr, hx, hm.members]

/-- A removal from the realm that the memory is in, if it is in one. -/
lemma remove_mirrors (hm : h.Mirrors view) {id : MemoryId} {realm : String}
    (hrealm : ∀ x, view id = some x → x.2 = realm) :
    (h.remove id realm).Mirrors (Function.update view id none) := by
  have hid := hm.memories id
  unfold HdcStore.remove
  cases hview : view id with
  | none =>
    rw [hview, Option.map_none] at hid
    have hsame : Function.update view id none = view := by
      rw [← hview, Function.update_eq_self]
    rw [hid, hsame]
    exact ⟨hm.memories, hm.ids, hm.members⟩
  | some x =>
    rw [hview, Option.map_some] at hid
    rw [hid]
    refine ⟨fun y => ?_, fun y => ?_, fun r y => ?_⟩
    · by_cases hy : y = id
      · subst hy
        simp
      · simp [hy, hm.memories]
    · by_cases hy : y = id
      · subst hy
        simp
      · simp [hy, hm.ids]
    · have hmembers : (Maps.modifyAt h.realmMembers realm (fun ids => ids.erase id) r).getD ∅ =
          if r = realm then ((h.realmMembers r).getD ∅).erase id else (h.realmMembers r).getD ∅ := by
        by_cases hr : r = realm
        · subst hr
          rw [if_pos rfl, Maps.modifyAt_self]
          cases h.realmMembers r <;> simp
        · rw [if_neg hr, Maps.modifyAt_of_ne hr]
      simp only [hmembers]
      by_cases hy : y = id
      · subst hy
        simp only [Function.update_self, reduceCtorEq, exists_false, iff_false]
        split_ifs with hr
        · exact Finset.notMem_erase y _
        · intro hmem
          obtain ⟨hv, heq⟩ := (hm.members r y).mp hmem
          exact hr (hrealm _ heq)
      · rw [Function.update_of_ne hy, ← hm.members]
        split_ifs
        · exact Finset.mem_erase.trans (and_iff_right hy)
        · exact Iff.rfl

lemma mutations_remove (id : MemoryId) (realm : String) :
    (h.remove id realm).mutations = h.mutations + 1 := by
  unfold HdcStore.remove
  cases h.memories id <;> rfl

/-- A rebuild mirrors the memories that it is given. -/
lemma rebuild_mirrors {entries : List (MemoryId × String × String)}
    (hnodup : (entries.map Prod.fst).Nodup)
    (hview : ∀ id x, view id = some x ↔
      ∃ text, (id, text, x.2) ∈ entries ∧ x.1 = Hdc.encode T text) :
    (h.rebuild T entries).Mirrors view := by
  have hfold : ∀ (h : HdcStore) (seen : MemoryId → Option (HdcVec × String)), h.Mirrors seen →
      (entries.map Prod.fst).Nodup → (∀ e ∈ entries, seen e.1 = none) →
        (∀ id x, view id = some x ↔ seen id = some x ∨
          ∃ text, (id, text, x.2) ∈ entries ∧ x.1 = Hdc.encode T text) →
            (entries.foldl (fun h e => h.insert T e.1 e.2.1 e.2.2) h).Mirrors view := by
    clear hview hnodup
    induction entries with
    | nil =>
      intro h seen hm _ _ hview
      have hsame : view = seen := by
        funext id
        exact Option.ext fun x => by simpa using hview id x
      rw [hsame]
      exact hm
    | cons e entries ih =>
      intro h seen hm hnodup hnone hview
      obtain ⟨id, text, realm⟩ := e
      rw [List.map_cons, List.nodup_cons] at hnodup
      have hnew : seen id = none := hnone _ List.mem_cons_self
      refine ih _ _ (insert_mirrors hm hnew text realm) hnodup.2 (fun e he => ?_) fun x y => ?_
      · have hne : e.1 ≠ id := fun heq => hnodup.1 (List.mem_map.mpr ⟨e, he, heq⟩)
        rw [Function.update_of_ne hne]
        exact hnone e (List.mem_cons_of_mem _ he)
      · rw [hview x y]
        by_cases hx : x = id
        · subst hx
          have hout : ∀ t r, (x, t, r) ∉ entries := fun t r hmem =>
            hnodup.1 (List.mem_map.mpr ⟨_, hmem, rfl⟩)
          simp only [hnew, Function.update_self, List.mem_cons, Prod.mk.injEq, true_and, hout,
            or_false, reduceCtorEq, false_or, false_and, exists_false, Option.some.injEq]
          constructor
          · rintro ⟨t, ⟨rfl, hr⟩, hv⟩
            exact Prod.ext hv.symm hr.symm
          · rintro rfl
            exact ⟨text, ⟨rfl, rfl⟩, rfl⟩
        · simp [hx]
  exact hfold _ _ (mirrors_new _) hnodup (fun _ _ => rfl) fun id x => by simp [hview]

end HdcStore

/-! ## The live memories -/

namespace HdcField

variable {T : Casing} {order : MemoryOrder} {embedDim : ℕ} {s : HdcField F}

/-- The live memories, as an index has them: with the vector of the content, and the realm. -/
def view (T : Casing) (ctx : ApplyCtx F) (id : MemoryId) : Option (HdcVec × String) :=
  if ctx.isLive id then
    (ctx.payloads id).map fun p => (Hdc.encode T (Lossy.fromUtf8Lossy p.content), p.realm)
  else none

/-- The index in use, the files of the checkpoints and the keys are right. -/
structure Kept (T : Casing) (s : HdcField F) : Prop where
  hdc : s.hdc.Mirrors (view T s.ctx)
  ids : ∀ id, s.ctx.payloads id ≠ none → id ∈ s.ids
  saved : ∀ n, s.sidecarSavedAt = some n → n ≤ s.hdc.mutations ∧
    (n = s.hdc.mutations → s.sidecarFile = some s.hdc.saveSidecar)
  checkpoints : ∀ cp ∈ s.checkpoints, (∀ id, cp.ctx.payloads id ≠ none → id ∈ cp.ids) ∧
    ∃ file, cp.sidecar = some file ∧ file.Mirrors (view T cp.ctx)

variable {ctx : ApplyCtx F} {ids : Finset MemoryId}

/-- The index that is rebuilt from the live memories mirrors them. -/
lemma rebuild_entries_mirrors (h : HdcStore) (hids : ∀ id, ctx.payloads id ≠ none → id ∈ ids) :
    (h.rebuild T (entries order ctx ids)).Mirrors (view T ctx) := by
  have hmem : ∀ e, e ∈ entries order ctx ids ↔ ctx.isLive e.1 = true ∧
      ∃ p, ctx.payloads e.1 = some p ∧ e.2 = (Lossy.fromUtf8Lossy p.content, p.realm) := by
    rintro ⟨id, text, realm⟩
    rw [entries, List.mem_filterMap]
    constructor
    · rintro ⟨x, -, hx⟩
      split_ifs at hx with hlive
      obtain ⟨p, hp, heq⟩ := Option.map_eq_some_iff.mp hx
      cases heq
      exact ⟨hlive, p, hp, rfl⟩
    · rintro ⟨hlive, p, hp, heq⟩
      refine ⟨id, (order.mem_walk _ _).mpr (hids id (by rw [hp]; exact Option.some_ne_none _)), ?_⟩
      rw [if_pos hlive, hp, Option.map_some, ← heq]
  refine HdcStore.rebuild_mirrors ?_ fun id x => ?_
  · have hfst : ((entries order ctx ids).map Prod.fst).Sublist (order.walk ids) := by
      unfold entries
      generalize order.walk ids = l
      induction l with
      | nil => exact List.Sublist.slnil
      | cons id l ih =>
        rw [List.filterMap_cons]
        split
        · exact ih.cons _
        · rename_i e he
          split_ifs at he
          obtain ⟨p, -, rfl⟩ := Option.map_eq_some_iff.mp he
          exact ih.cons_cons _
    exact (order.nodup ids).sublist hfst
  · unfold view
    constructor
    · intro hview
      split_ifs at hview with hlive
      obtain ⟨p, hp, rfl⟩ := Option.map_eq_some_iff.mp hview
      exact ⟨_, (hmem _).mpr ⟨hlive, p, hp, rfl⟩, rfl⟩
    · rintro ⟨text, he, hv⟩
      obtain ⟨hlive, p, hp, heq⟩ := (hmem _).mp he
      rw [Prod.mk.injEq] at heq
      rw [if_pos hlive, hp, Option.map_some, Option.some.injEq]
      exact Prod.ext (by rw [hv, heq.1]) heq.2.symm

/-- The view behind a change of one memory. -/
lemma view_update (ctx : ApplyCtx F) {ctx' : ApplyCtx F} (id : MemoryId)
    (hstates : ∀ x ≠ id, ctx'.states x = ctx.states x)
    (hpayloads : ∀ x ≠ id, ctx'.payloads x = ctx.payloads x) :
    view T ctx' = Function.update (view T ctx) id (view T ctx' id) := by
  funext x
  by_cases hx : x = id
  · subst hx
    rw [Function.update_self]
  · rw [Function.update_of_ne hx, view, view, ApplyCtx.isLive, ApplyCtx.isLive, hstates x hx,
      hpayloads x hx]

/-- A change that nothing is seen of. -/
lemma Kept.of_view (h : s.Kept T) (hview : view T ctx = view T s.ctx)
    (hids : ∀ id, ctx.payloads id ≠ none → id ∈ ids) :
    ({ s with ctx := ctx, ids := ids } : HdcField F).Kept T :=
  ⟨by rw [hview]; exact h.hdc, hids, h.saved, h.checkpoints⟩

/-- A change of the index. -/
lemma Kept.of_hdc (h : s.Kept T) {hdc : HdcStore} (hm : hdc.Mirrors (view T ctx))
    (hids : ∀ id, ctx.payloads id ≠ none → id ∈ ids) (hmutations : s.hdc.mutations < hdc.mutations) :
    ({ s with ctx := ctx, ids := ids, hdc := hdc } : HdcField F).Kept T := by
  refine ⟨hm, hids, fun n hn => ?_, h.checkpoints⟩
  have hle := (h.saved n hn).1
  change n ≤ hdc.mutations ∧ (n = hdc.mutations → _)
  exact ⟨by omega, fun heq => absurd heq (by omega)⟩

variable {f : MemoryPayload F → MemoryPayload F}

lemma payloads_modifyPayload_ne_none {id x : MemoryId} :
    (ctx.modifyPayload id f).payloads x ≠ none ↔ ctx.payloads x ≠ none :=
  not_congr Maps.modifyAt_eq_none

/-- A change of a payload is not seen if the memory does not live, or neither the vector nor the
realm change. -/
lemma view_modifyPayload {id : MemoryId}
    (h : ctx.isLive id = true → ∀ p ∈ ctx.payloads id,
      Hdc.encode T (Lossy.fromUtf8Lossy (f p).content) =
        Hdc.encode T (Lossy.fromUtf8Lossy p.content) ∧ (f p).realm = p.realm) :
    view T (ctx.modifyPayload id f) = view T ctx := by
  have hupdate : view T (ctx.modifyPayload id f) =
      Function.update (view T ctx) id (view T (ctx.modifyPayload id f) id) :=
    view_update _ _ (fun _ _ => rfl) fun x hx => Maps.modifyAt_of_ne hx
  rw [hupdate]
  refine Function.update_eq_self_iff.mpr ?_
  have hlive : (ctx.modifyPayload id f).isLive id = ctx.isLive id := rfl
  rw [view, view, hlive]
  split_ifs with hl
  · have hpayload : (ctx.modifyPayload id f).payloads id = (ctx.payloads id).map f :=
      Maps.modifyAt_self
    rw [hpayload]
    cases hp : ctx.payloads id with
    | none => rfl
    | some p =>
      obtain ⟨hcontent, hrealm⟩ := h hl p hp
      rw [Option.map_some, Option.map_some, Option.map_some, hcontent, hrealm]
  · rfl

/-! ## One step -/

/-- A change behind which the index is still right: a new memory has a content that is the same text
to both decoders, as far as vectors go; the content of a live memory is replaced by one with the same
vector, and its realm by itself; operations of peers leave the live memories as they are; and an open
finds the live memories that the file which it loads was written with, if it loads one that has
any. -/
def Fed [F32 F] (T : Casing) (embedDim : ℕ) (s : HdcField F) : HdcCall F → Prop
  | .putMemory found op appended =>
    (op.embedding = [] ∨ op.embedding.length = embedDim) → found.any s.ctx.isLive = false →
      appended = true →
        (s.ctx.payloads op.memoryId = none ∨ s.ctx.isLive op.memoryId = false) ∧
          Hdc.encode T (decodeText op.content) =
            Hdc.encode T (Lossy.fromUtf8Lossy op.content)
  | .updateMemoryContent op appended =>
    (op.embedding = [] ∨ op.embedding.length = embedDim) → appended = true →
      s.ctx.isLive op.memoryId = true → ∀ p ∈ s.ctx.payloads op.memoryId,
        Hdc.encode T (Lossy.fromUtf8Lossy op.content) =
          Hdc.encode T (Lossy.fromUtf8Lossy p.content)
  | .setRealm memoryId newRealm =>
    s.ctx.isLive memoryId = true → ∀ p ∈ s.ctx.payloads memoryId, newRealm = p.realm
  | .forget _ _ => True
  | .saveFullSnapshot => True
  | .syncForeign ops => view T (applyOps s.ctx ops) = view T s.ctx
  | .reopen snapshot sidecar tail =>
    ∀ cp ∈ sidecar.bind (s.checkpoints[·]?), (∃ id, view T cp.ctx id ≠ none) →
      view T (s.recovered snapshot tail).1 = view T cp.ctx

lemma kept_new : (new : HdcField F).Kept T :=
  ⟨HdcStore.mirrors_new 0, fun _ h => absurd rfl h, fun _ h => (nomatch h), fun _ h => (nomatch h)⟩

variable [F32 F]

omit [F32 F] in
lemma mem_putIds {op : Op F} {id : MemoryId} (h : creates op = some id) : id ∈ putIds [op] := by
  cases op with
  | putPayload put =>
    rw [creates, Option.some.injEq] at h
    exact List.mem_toFinset.mpr (List.mem_singleton.mpr h.symm)
  | _ => exact absurd h (Option.some_ne_none _).symm

/-- The memories behind operations have their keys. -/
lemma mem_ids_applyOps (h : ∀ id, ctx.payloads id ≠ none → id ∈ ids) (ops : List (Op F)) :
    ∀ id, (applyOps ctx ops).payloads id ≠ none → id ∈ ids ∪ putIds ops := by
  induction ops generalizing ctx ids with
  | nil =>
    intro id hid
    exact Finset.mem_union_left _ (h id hid)
  | cons op ops ih =>
    have hputs : putIds (op :: ops) = putIds [op] ∪ putIds ops := by
      unfold putIds
      rw [← List.toFinset_append, ← List.filterMap_append, List.singleton_append]
    have hop : ∀ id, (applyOp op ctx).payloads id ≠ none → id ∈ ids ∪ putIds [op] := by
      intro id hid
      rw [← Option.isSome_iff_ne_none, isSome_payloads_applyOp, Bool.or_eq_true,
        decide_eq_true_eq] at hid
      rcases hid with hold | hnew
      · exact Finset.mem_union_left _ (h id (Option.isSome_iff_ne_none.mp hold))
      · refine Finset.mem_union_right _ ?_
        exact mem_putIds hnew
    intro id hid
    rw [hputs, ← Finset.union_assoc]
    exact ih hop id hid

omit [F32 F] in
/-- A change of a payload that is not seen keeps the index right. -/
lemma Kept.modifyPayload (h : s.Kept T) {id : MemoryId}
    (hf : s.ctx.isLive id = true → ∀ p ∈ s.ctx.payloads id,
      Hdc.encode T (Lossy.fromUtf8Lossy (f p).content) =
        Hdc.encode T (Lossy.fromUtf8Lossy p.content) ∧ (f p).realm = p.realm) :
    ({ s with ctx := s.ctx.modifyPayload id f } : HdcField F).Kept T :=
  h.of_view (view_modifyPayload hf) fun x hx => h.ids x (payloads_modifyPayload_ne_none.mp hx)

lemma Kept.putMemory (h : s.Kept T) {found : Option MemoryId} {op : PutPayloadOp F}
    {appended : Bool} (hfed : Fed T embedDim s (.putMemory found op appended)) :
    (s.putMemory T embedDim found op appended).Kept T := by
  unfold HdcField.putMemory
  split_ifs with hlen hfound happended
  · exact h
  · exact h
  · obtain ⟨hnew, hencode⟩ := hfed (by tauto) (Bool.eq_false_of_not_eq_true hfound) happended
    have hnone : view T s.ctx op.memoryId = none := by
      unfold view
      rcases hnew with hpayload | hdead
      · rw [hpayload, Option.map_none, ite_self]
      · rw [if_neg (by rw [hdead]; exact Bool.false_ne_true)]
    refine h.of_hdc ?_ ?_ (Nat.lt_succ_self _)
    · rw [view_update s.ctx op.memoryId ?_ ?_]
      · have hview : view T { s.ctx with
            payloads := Function.update s.ctx.payloads op.memoryId (some (.ofPut op))
            states := Function.update s.ctx.states op.memoryId
              (some (.new op.memoryId op.chunkHash op.createdAtMs)) } op.memoryId =
            some (Hdc.encode T (decodeText op.content), op.realm) := by
          simp [view, ApplyCtx.isLive, MemoryState.new, MemoryPayload.ofPut, hencode]
        rw [hview]
        exact HdcStore.insert_mirrors h.hdc hnone _ _
      · intro x hx
        exact Function.update_of_ne hx _ _
      · intro x hx
        exact Function.update_of_ne hx _ _
    · intro x hx
      by_cases heq : x = op.memoryId
      · rw [heq]
        exact Finset.mem_insert_self _ _
      · exact Finset.mem_insert_of_mem (h.ids x (by simpa [heq] using hx))
  · exact h

omit [F32 F] in
lemma Kept.updateMemoryContent (h : s.Kept T) {op : UpdateMemoryContentOp F} {appended : Bool}
    (hfed : (op.embedding = [] ∨ op.embedding.length = embedDim) → appended = true →
      s.ctx.isLive op.memoryId = true → ∀ p ∈ s.ctx.payloads op.memoryId,
        Hdc.encode T (Lossy.fromUtf8Lossy op.content) =
          Hdc.encode T (Lossy.fromUtf8Lossy p.content)) :
    (s.updateMemoryContent embedDim op appended).Kept T := by
  unfold HdcField.updateMemoryContent
  by_cases hlen : op.embedding ≠ [] ∧ op.embedding.length ≠ embedDim
  · rw [if_pos hlen]
    exact h
  rw [if_neg hlen]
  by_cases happended : (s.ctx.payloads op.memoryId).isSome = true ∧ appended = true
  · rw [if_pos happended]
    exact h.modifyPayload fun hlive p hp => ⟨hfed (by tauto) happended.2 hlive p hp, rfl⟩
  · rw [if_neg happended]
    exact h

omit [F32 F] in
lemma Kept.forget (h : s.Kept T) (op : DeleteMemoryOp) (appended : Bool) :
    (s.forget op appended).Kept T := by
  unfold HdcField.forget
  split_ifs with hstate
  · set ctx := (s.ctx.modifyState op.memoryId ({ · with deleted := true })).modifyPayload
      op.memoryId ({ · with content := [] })
    have hids : ∀ id, ctx.payloads id ≠ none → id ∈ s.ids := fun id hid =>
      h.ids id (payloads_modifyPayload_ne_none.mp hid)
    have hview : view T ctx = Function.update (view T s.ctx) op.memoryId none := by
      have hstates : ctx.states op.memoryId =
          (s.ctx.states op.memoryId).map ({ · with deleted := true }) := Maps.modifyAt_self
      have hdead : ctx.isLive op.memoryId = false := by
        rw [ApplyCtx.isLive, hstates]
        cases s.ctx.states op.memoryId <;> rfl
      have hnone : view T ctx op.memoryId = none := by
        rw [view, hdead]
        exact if_neg Bool.false_ne_true
      rw [← hnone]
      exact view_update _ _ (fun x hx => Maps.modifyAt_of_ne hx) fun x hx =>
        Maps.modifyAt_of_ne hx
    cases hp : s.ctx.payloads op.memoryId with
    | none =>
      have hsame : view T ctx = view T s.ctx := by
        rw [hview, Function.update_eq_self_iff, view, hp, Option.map_none, ite_self]
      exact h.of_view hsame hids
    | some p =>
      refine h.of_hdc ?_ hids ?_
      · rw [hview]
        refine HdcStore.remove_mirrors h.hdc fun x hx => ?_
        unfold view at hx
        split_ifs at hx
        rw [hp, Option.map_some, Option.some.injEq] at hx
        rw [← hx]
      · rw [Option.elim_some, HdcStore.mutations_remove]
        exact Nat.lt_succ_self _
  · exact h

omit [F32 F] in
/-- A checkpoint leaves the index of the live memories behind, whether it is written or kept. -/
lemma Kept.saveFullSnapshot (h : s.Kept T) : s.saveFullSnapshot.Kept T := by
  have hfile : (if s.sidecarSavedAt = some s.hdc.mutations ∧ s.sidecarFile.isSome then
      s.sidecarFile else some s.hdc.saveSidecar) = some s.hdc.saveSidecar := by
    split_ifs with hclean
    · exact (h.saved _ hclean.1).2 rfl
    · rfl
  refine ⟨h.hdc, h.ids, fun n hn => ?_, fun cp hcp => ?_⟩
  · have heq : s.hdc.mutations = n := Option.some.inj hn
    exact ⟨heq.ge, fun _ => hfile⟩
  · rcases List.mem_append.mp hcp with hold | hnew
    · exact h.checkpoints cp hold
    · rw [List.mem_singleton.mp hnew]
      refine ⟨fun id hid => ?_, _, hfile, ?_⟩
      · by_cases hdeleted : (s.ctx.states id).any (·.deleted) = true
        · exact absurd (if_pos hdeleted) hid
        · refine Finset.mem_filter.mpr ⟨h.ids id ?_, Bool.eq_false_of_not_eq_true hdeleted⟩
          exact fun hnone => hid (by rw [← hnone]; exact if_neg hdeleted)
      · have hview : view T { s.ctx with
            payloads := fun id =>
              if (s.ctx.states id).any (·.deleted) then none else s.ctx.payloads id
            states := fun id => if (s.ctx.states id).any (·.deleted) then none else s.ctx.states id }
            = view T s.ctx := by
          funext id
          unfold view ApplyCtx.isLive
          cases hstate : s.ctx.states id with
          | none => simp [hstate]
          | some state => cases hdeleted : state.deleted <;> simp [hstate, hdeleted]
        rw [hview]
        exact h.hdc

/-- An open has the index of the live memories, if what it loads was written with these. -/
lemma Kept.reopen (h : s.Kept T) {snapshot sidecar : Option ℕ} {tail : List (Op F)}
    (hfed : Fed T embedDim s (.reopen snapshot sidecar tail)) :
    (s.reopen T order snapshot sidecar tail).Kept T := by
  have hids : ∀ id, (s.recovered snapshot tail).1.payloads id ≠ none →
      id ∈ (s.recovered snapshot tail).2 := by
    unfold recovered
    cases hcp : snapshot.bind (s.checkpoints[·]?) with
    | none =>
      intro id hid
      have hempty : ∀ id, (ApplyCtx.empty : ApplyCtx F).payloads id ≠ none →
          id ∈ (∅ : Finset MemoryId) := fun _ hne => absurd rfl hne
      have hmem := mem_ids_applyOps hempty tail id hid
      rwa [Finset.empty_union] at hmem
    | some cp =>
      obtain ⟨n, -, hn⟩ := Option.bind_eq_some_iff.mp hcp
      exact mem_ids_applyOps (h.checkpoints cp (List.mem_of_getElem? hn)).1 tail
  refine ⟨?_, hids, fun _ hn => (nomatch hn), h.checkpoints⟩
  change (warmStartup T order (s.recovered snapshot tail).1 (s.recovered snapshot tail).2
    ((sidecar.bind (s.checkpoints[·]?)).bind (·.sidecar))).Mirrors _
  unfold warmStartup
  cases hcp : sidecar.bind (s.checkpoints[·]?) with
  | none => exact rebuild_entries_mirrors _ hids
  | some cp =>
    obtain ⟨n, -, hn⟩ := Option.bind_eq_some_iff.mp hcp
    obtain ⟨file, hfile, hm⟩ := (h.checkpoints cp (List.mem_of_getElem? hn)).2
    rw [Option.bind_some, hfile, Option.elim_some]
    by_cases hcard : file.ids.card = 0
    · rw [if_pos (show (HdcStore.new.loadSidecar file).2 = 0 from hcard)]
      exact rebuild_entries_mirrors _ hids
    · rw [if_neg (show ¬(HdcStore.new.loadSidecar file).2 = 0 from hcard)]
      obtain ⟨id, hid⟩ := Finset.card_ne_zero.mp hcard
      have hlive : view T cp.ctx id ≠ none := by
        intro hnone
        have hmem := (hm.ids id).mp hid
        rw [hm.memories, hnone] at hmem
        exact hmem rfl
      change file.Mirrors (view T (s.recovered snapshot tail).1)
      rw [hfed cp hcp ⟨id, hlive⟩]
      exact hm

/-- A call keeps the index right. -/
lemma Kept.call (h : s.Kept T) {c : HdcCall F} (hfed : Fed T embedDim s c) :
    (s.call T order embedDim c).1.Kept T := by
  cases c with
  | putMemory => exact h.putMemory hfed
  | updateMemoryContent => exact h.updateMemoryContent hfed
  | setRealm =>
    exact h.modifyPayload fun hlive p hp => ⟨rfl, hfed hlive p hp⟩
  | forget op appended => exact h.forget op appended
  | saveFullSnapshot => exact h.saveFullSnapshot
  | syncForeign ops => exact h.of_view hfed (mem_ids_applyOps h.ids ops)
  | reopen => exact h.reopen hfed

/-! ## Runs -/

/-- Along a run of such changes, the index has the live memories, and what a rebuild has. -/
theorem hdc_is_rebuild {calls : List (HdcCall F)}
    (hall : Replayed.All (call T order embedDim) (Fed T embedDim) new calls) :
    let s := (Replayed.run (call T order embedDim) new calls).1
    s.hdc.Mirrors (view T s.ctx) ∧
      s.hdc.SameIndex (s.hdc.rebuild T (entries order s.ctx s.ids)).toHdcSidecar := by
  have hkept := Replayed.invariant_run (Kept T) (fun _ _ h hfed => h.call hfed) kept_new hall
  exact ⟨hkept.hdc, hkept.hdc.same (rebuild_entries_mirrors _ hkept.ids)⟩

/-- A walk in the order of the identifiers. -/
def sampleOrder : MemoryOrder where
  walk ids := (List.range (ids.sup id + 1)).filter (· ∈ ids)
  nodup _ := List.nodup_range.filter _
  mem_walk ids x := by
    rw [List.mem_filter, List.mem_range, decide_eq_true_eq, and_iff_right_iff_imp]
    exact fun hx => Nat.lt_succ_of_le (Finset.le_sup (f := id) hx)

def sampleHdcPut (id : MemoryId) (content : Bytes) : PutPayloadOp ℚ :=
  ⟨id, 0, [], 1, 1, "episode", "a", content, "none", [], [], none, none, none, "", 0⟩

/-- Behind a checkpoint a content is replaced and a memory is stored; an open that loads the file of
the checkpoint has the old vector of the one, and the other not at all. -/
theorem hdc_not_rebuild :
    let s := (Replayed.run (call .ascii sampleOrder 2) new
      [.putMemory none (sampleHdcPut 1 "red".toUTF8.toList) true, .saveFullSnapshot,
        .putMemory none (sampleHdcPut 2 "blue".toUTF8.toList) true,
        .updateMemoryContent ⟨1, "green".toUTF8.toList, [], 2⟩ true,
        .reopen (some 0) (some 0) [.putPayload (sampleHdcPut 2 "blue".toUTF8.toList),
          .updateMemoryContent ⟨1, "green".toUTF8.toList, [], 2⟩]]).1
    let rebuilt := s.hdc.rebuild .ascii (entries sampleOrder s.ctx s.ids)
    (s.hdc.memories 1).map (· 0) ≠ (rebuilt.memories 1).map (· 0) ∧
      (s.hdc.memories 2).isSome = false ∧ (rebuilt.memories 2).isSome = true := by
  decide +kernel

/-- Memories are stored, rewritten, forgotten and saved; peers add an edge, and the store is opened
from the checkpoint and from the log alone. -/
theorem hdc_is_rebuild_sample :
    let s := (Replayed.run (call .ascii sampleOrder 2) new
      [.putMemory none (sampleHdcPut 1 "red".toUTF8.toList) true,
        .putMemory (some 1) (sampleHdcPut 2 "red".toUTF8.toList) true,
        .putMemory none (sampleHdcPut 2 "blue".toUTF8.toList) true,
        .updateMemoryContent ⟨2, "blue".toUTF8.toList, [], 2⟩ true, .setRealm 1 "a",
        .forget ⟨2, 3⟩ true, .saveFullSnapshot,
        .syncForeign [.addAssocEdge ⟨1, 2, .supports, 1⟩], .reopen (some 0) (some 0) [],
        .reopen none none [.putPayload (sampleHdcPut 3 "green".toUTF8.toList)]]).1
    s.hdc.Mirrors (view .ascii s.ctx) ∧
      s.hdc.SameIndex (s.hdc.rebuild .ascii (entries sampleOrder s.ctx s.ids)).toHdcSidecar := by
  have hred : decodeText "red".toUTF8.toList = Lossy.fromUtf8Lossy "red".toUTF8.toList := by
    decide +kernel
  have hblue : decodeText "blue".toUTF8.toList = Lossy.fromUtf8Lossy "blue".toUTF8.toList := by
    decide +kernel
  refine hdc_is_rebuild ⟨fun _ _ _ => ⟨.inl rfl, congrArg _ hred⟩, fun _ hfound => ?_,
    fun _ _ _ => ⟨.inl rfl, congrArg _ hblue⟩, fun _ _ _ p hp => ?_, fun _ p hp => ?_, trivial,
    trivial, rfl, fun cp hcp _ => ?_, fun cp hcp => ?_, trivial⟩
  · cases hfound
  · cases hp
    rfl
  · cases hp
    rfl
  · cases hcp
    rfl
  · cases hcp

end HdcField

end ChittaField
