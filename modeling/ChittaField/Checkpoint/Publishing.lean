import ChittaField.Checkpoint.Sections

/-!
# Publishing sections in groups

Every section writes one field of the snapshot, and what it writes depends on nothing else.  A group
has all sections of a field or none, so that the order in which groups are published does not matter.

`sectioned_decode` compares the loader with the loop that takes one section after the other.
-/

namespace ChittaField

/-! ## Applying sections -/

variable {f : SectionField}

section Apply

variable {C : SnapshotCodec} (deferTripletIndexes : Bool)

/-- The error of a section whose body does not decode. -/
def sectionErr (C : SnapshotCodec) (s : Section) : Option FieldError :=
  match decodeSection C deferTripletIndexes s with
  | .ok _ => none
  | .error e => some e

/-- The error of the first section whose body does not decode. -/
def firstError (C : SnapshotCodec) (ss : List Section) : Option FieldError :=
  ss.findSome? (sectionErr deferTripletIndexes C)

/-- Apply a section as it is decoded. -/
def applySection (s : Section) (snap : FullSnapshot C) : FullSnapshot C :=
  match decodeSection C deferTripletIndexes s with
  | .ok apply => apply snap
  | .error _ => snap

/-- Apply a section and make its states finite. -/
def applyFinite (s : Section) (snap : FullSnapshot C) : FullSnapshot C :=
  if s.name = "states" then (applySection deferTripletIndexes s snap).sanitizeStates
  else applySection deferTripletIndexes s snap

/-- It changes at most one field, by what that field is. -/
structure Writes (target : Option SectionField) (apply : ApplySection C) : Prop where
  seqno : ∀ snap, (apply snap).snapshotSeqno = snap.snapshotSeqno
  frame : ∀ snap f, target ≠ some f → (apply snap).value f = snap.value f
  congr : ∀ snap snap' f, snap.value f = snap'.value f →
    (apply snap).value f = (apply snap').value f

/-- Setting a field by what it is writes that field. -/
lemma writes_set (f : SectionField) (g : C.Val f → C.Val f) :
    Writes (some f) fun snap : FullSnapshot C => snap.set f (g (snap.value f)) where
  seqno _ := rfl
  frame snap f' h := FullSnapshot.value_set_of_ne _ (fun h' => h (congrArg some h'.symm)) _
  congr snap snap' f' h := by
    by_cases hf : f' = f
    · subst hf
      simp only [FullSnapshot.value_set, h]
    · simp only [FullSnapshot.value_set_of_ne _ hf, h]

/-- What changes nothing writes any field. -/
lemma writes_id (target : Option SectionField) : Writes target (id : ApplySection C) where
  seqno _ := rfl
  frame _ _ _ := rfl
  congr _ _ _ h := h

lemma Writes.comp {target : Option SectionField} {a b : ApplySection C} (ha : Writes target a)
    (hb : Writes target b) : Writes target fun snap => b (a snap) where
  seqno _ := (hb.seqno _).trans (ha.seqno _)
  frame _ f h := (hb.frame _ f h).trans (ha.frame _ f h)
  congr _ _ f h := hb.congr _ _ f (ha.congr _ _ f h)

lemma writes_applySection (s : Section) :
    Writes (targetOf s.name) (applySection (C := C) deferTripletIndexes s) := by
  unfold applySection
  cases hd : decodeSection C deferTripletIndexes s with
  | error e => exact writes_id _
  | ok apply =>
    unfold decodeSection at hd
    cases hk : SectionKind.ofName s.name with
    | field f =>
      simp only [hk] at hd
      cases hv : C.decode f s.body with
      | error e => rw [hv] at hd; cases hd
      | ok value =>
        rw [hv] at hd
        obtain rfl := Except.ok.inj hd
        rw [targetOf, hk]
        exact writes_set f fun _ => prepare C deferTripletIndexes f value
    | tripletsClean =>
      simp only [hk] at hd
      cases hv : C.decodeClean s.body with
      | error e => rw [hv] at hd; cases hd
      | ok value =>
        rw [hv] at hd
        obtain rfl := Except.ok.inj hd
        rw [targetOf, hk]
        exact writes_set .tripletStore (C.setClean value)
    | unknown =>
      simp only [hk] at hd
      obtain rfl := Except.ok.inj hd
      exact writes_id _

lemma targetOf_states : targetOf "states" = some .states := by decide

lemma writes_applyFinite (s : Section) :
    Writes (targetOf s.name) (applyFinite (C := C) deferTripletIndexes s) := by
  unfold applyFinite
  by_cases hs : s.name = "states"
  · simp only [hs, if_true]
    have h := writes_applySection (C := C) deferTripletIndexes s
    rw [hs, targetOf_states] at h
    rw [targetOf_states]
    exact h.comp (writes_set .states C.sanitize)
  · simp only [hs, if_false]
    exact writes_applySection deferTripletIndexes s

/-! ## Applying many sections -/

variable {a : Section → ApplySection C} (ha : ∀ s, Writes (targetOf s.name) (a s))

include ha in
lemma seqno_foldl (ss : List Section) (snap : FullSnapshot C) :
    (ss.foldl (fun snap s => a s snap) snap).snapshotSeqno = snap.snapshotSeqno := by
  induction ss generalizing snap with
  | nil => rfl
  | cons s ss ih => exact (ih _).trans ((ha s).seqno snap)

include ha in
lemma value_foldl_congr (ss : List Section) {snap snap' : FullSnapshot C}
    (h : snap.value f = snap'.value f) : (ss.foldl (fun snap s => a s snap) snap).value f =
      (ss.foldl (fun snap s => a s snap) snap').value f := by
  induction ss generalizing snap snap' with
  | nil => exact h
  | cons s ss ih => exact ih ((ha s).congr _ _ f h)

include ha in
/-- A field is what the sections for it make of it. -/
lemma value_foldl (ss : List Section) (snap : FullSnapshot C) (f : SectionField) :
    (ss.foldl (fun snap s => a s snap) snap).value f =
      ((ss.filter fun s => targetOf s.name = some f).foldl (fun snap s => a s snap) snap).value f := by
  induction ss generalizing snap with
  | nil => rfl
  | cons s ss ih =>
    by_cases hs : targetOf s.name = some f
    · rw [List.filter_cons_of_pos (by simpa using hs), List.foldl_cons, List.foldl_cons]
      exact ih _
    · rw [List.filter_cons_of_neg (by simpa using hs), List.foldl_cons]
      exact (ih _).trans (value_foldl_congr ha _ ((ha s).frame snap f hs))

end Apply

/-! ## The loop over the sections -/

variable {name : String}

section Serial

variable {C : SnapshotCodec} (deferTripletIndexes : Bool)

lemma sectionTable_header {bytes rest : Bytes} {declaredLen : ℕ}
    (h : readSectionHeader bytes = .header name declaredLen rest) : sectionTable bytes =
      (⟨name, rest.take declaredLen, declaredLen⟩ :: (sectionTable (rest.drop declaredLen)).1,
        (sectionTable (rest.drop declaredLen)).2) := by
  rw [sectionTable, h]
  rcases Nat.le_total declaredLen rest.length with hle | hle
  · simp only [Nat.min_eq_left hle]
  · simp only [Nat.min_eq_right hle, List.take_of_length_le hle, List.drop_of_length_le hle,
      List.take_length, List.drop_length]

lemma firstError_cons (s : Section) (ss : List Section) :
    firstError deferTripletIndexes C (s :: ss) =
      (sectionErr deferTripletIndexes C s).or (firstError deferTripletIndexes C ss) := by
  rw [firstError, List.findSome?_cons]
  cases sectionErr deferTripletIndexes C s <;> rfl

/-- The loop fails at the first section that does not decode, then at the table. -/
lemma serialLoop_eq (bytes : Bytes) (snap : FullSnapshot C) :
    serialLoop C deferTripletIndexes bytes snap =
      match firstError deferTripletIndexes C (sectionTable bytes).1 with
      | some e => .error e
      | none => (sectionTable bytes).2.map fun _ => (sectionTable bytes).1.foldl
          (fun snap s => applyFinite deferTripletIndexes s snap) snap := by
  induction bytes, snap using serialLoop.induct C deferTripletIndexes with
  | case1 bytes snap h => rw [serialLoop, sectionTable, h]; rfl
  | case2 bytes snap h => rw [serialLoop, sectionTable, h]; rfl
  | case3 bytes snap name declaredLen rest h e hd =>
    rw [sectionTable_header h, firstError_cons, serialLoop, h]
    simp only [sectionErr, hd]
    rfl
  | case4 bytes snap name declaredLen rest h apply hd ih =>
    rw [sectionTable_header h, firstError_cons, serialLoop, h]
    simp only [sectionErr, hd, Option.none_or, List.foldl_cons]
    have hfin : applyFinite deferTripletIndexes ⟨name, rest.take declaredLen, declaredLen⟩ snap =
        if name = "states" then (apply snap).sanitizeStates else apply snap := by
      simp only [applyFinite, applySection, hd]
    rw [hfin]
    exact ih

end Serial

/-! ## Groups -/

lemma ofName_eq_field (h : SectionKind.ofName name = .field f) : name = f.name := by
  unfold SectionKind.ofName at h
  split at h
  · cases h
  · cases hf : SectionField.all.find? fun f => f.name = name with
    | none => rw [hf] at h; cases h
    | some g =>
      rw [hf] at h
      obtain rfl := SectionKind.field.inj h
      have hname := List.find?_some hf
      exact (of_decide_eq_true hname).symm

/-- The sections of a field have one name, but for the triplets. -/
lemma name_of_targetOf (h : targetOf name = some f) :
    name = f.name ∨ f = .tripletStore ∧ name = "triplets_clean" := by
  unfold targetOf at h
  cases hk : SectionKind.ofName name with
  | field g =>
    rw [hk] at h
    obtain rfl := Option.some.inj h
    exact .inl (ofName_eq_field hk)
  | tripletsClean =>
    rw [hk] at h
    refine .inr ⟨(Option.some.inj h).symm, ?_⟩
    by_contra hne
    rw [SectionKind.ofName, if_neg hne] at hk
    cases hf : SectionField.all.find? fun f => f.name = name <;> rw [hf] at hk <;> cases hk
  | unknown => rw [hk] at h; cases h

lemma targetOf_eq_states : targetOf name = some .states ↔ name = "states" := by
  constructor
  · intro h
    rcases name_of_targetOf h with h | ⟨h, -⟩
    · exact h
    · cases h
  · rintro rfl
    exact targetOf_states

open MappedSnapshot

/-- A group has all sections of a field or none. -/
lemma grouped_of_targetOf (h : targetOf name = some f) (select : String → Bool) :
    grouped select name = grouped select f.name := by
  rcases name_of_targetOf h with rfl | ⟨rfl, rfl⟩
  · rfl
  · unfold grouped SectionField.name
    cases select "triplet_store" <;> cases select "triplets_clean" <;> rfl

/-! ## One publication -/

section Publish

variable {C : SnapshotCodec} {deferTripletIndexes : Bool}

/-- Everything in one go. -/
def wholeOf (deferTripletIndexes : Bool) (ss : List Section) (start : FullSnapshot C) :
    FullSnapshot C :=
  ss.foldl (fun snap s => applyFinite deferTripletIndexes s snap) start

/-- Where a loader is: the fields of `done` are published, the others are as they were. -/
structure Staged (deferTripletIndexes : Bool) (ss : List Section) (table : Except FieldError Unit)
    (start : FullSnapshot C) (p : MappedSnapshot C) (snap : FullSnapshot C)
    (done : SectionField → Bool) : Prop where
  heads : p.slots.map (·.head) = ss
  deferred : p.deferTripletIndexes = deferTripletIndexes
  table : p.tableResult = table
  decoded : ∀ s ∈ p.slots, s.published = false →
    s.decoded = none ∨ s.decoded = some (decodeSection C deferTripletIndexes s.head)
  published : ∀ s ∈ p.slots, s.published = true → sectionErr deferTripletIndexes C s.head = none
  group : ∀ s ∈ p.slots, ∀ f, targetOf s.head.name = some f → s.published = done f
  value : ∀ f, snap.value f =
    if done f then (wholeOf deferTripletIndexes ss start).value f else start.value f
  seqno : snap.snapshotSeqno = start.snapshotSeqno
  failed : p.failed = true → ∃ s ∈ ss, sectionErr deferTripletIndexes C s ≠ none

variable {ss : List Section}

lemma firstError_eq_none :
    firstError deferTripletIndexes C ss = none ↔
      ∀ s ∈ ss, sectionErr deferTripletIndexes C s = none := by
  rw [firstError, List.findSome?_eq_none_iff]

/-- A section that is not known always decodes. -/
lemma sectionErr_of_unknown {s : Section} (h : targetOf s.name = none) :
    sectionErr deferTripletIndexes C s = none := by
  unfold targetOf at h
  unfold sectionErr decodeSection
  cases hk : SectionKind.ofName s.name with
  | field f => rw [hk] at h; cases h
  | tripletsClean => rw [hk] at h; cases h
  | unknown => rfl

/-- Taking decoded bodies stops at the first error. -/
lemma takeReady_eq {slots : List (SectionSlot C)}
    (h : ∀ s ∈ slots, s.decoded = some (decodeSection C deferTripletIndexes s.head)) :
    takeReady slots =
      match firstError deferTripletIndexes C (slots.map (·.head)) with
      | some e => .error e
      | none => .ok ((slots.map (·.head)).map (applySection deferTripletIndexes)) := by
  induction slots with
  | nil => rfl
  | cons s slots ih =>
    have hs := h s (List.mem_cons_self ..)
    have ih := ih (List.forall_mem_cons.mp h).2
    rw [takeReady, hs, List.map_cons, firstError_cons]
    cases hd : decodeSection C deferTripletIndexes s.head with
    | error e => simp only [sectionErr, hd]; rfl
    | ok apply =>
      have hfun : applySection deferTripletIndexes s.head = apply := by
        funext snap
        rw [applySection, hd]
      simp only [sectionErr, hd, ih, Option.none_or, List.map_cons, hfun]
      cases firstError deferTripletIndexes C (slots.map (·.head)) <;> rfl

/-- The values of a field agree where every section makes them agree. -/
lemma value_foldl_eq {a b : Section → ApplySection C} (ha : ∀ s, Writes (targetOf s.name) (a s))
    (hab : ∀ s snap, (a s snap).value f = (b s snap).value f) (ss : List Section)
    (snap : FullSnapshot C) : (ss.foldl (fun snap s => a s snap) snap).value f =
      (ss.foldl (fun snap s => b s snap) snap).value f := by
  induction ss generalizing snap with
  | nil => rfl
  | cons s ss ih => exact (value_foldl_congr ha ss (hab s snap)).trans (ih _)

/-- Away from the states nothing is made finite. -/
lemma value_applyFinite (hf : f ≠ .states) (s : Section) (snap : FullSnapshot C) :
    (applySection deferTripletIndexes s snap).value f =
      (applyFinite deferTripletIndexes s snap).value f := by
  unfold applyFinite
  split
  · exact (FullSnapshot.value_sanitizeStates_of_ne _ hf).symm
  · rfl

/-- A section of the states does not depend on the states before it. -/
lemma value_applySection_states {s : Section} (hs : s.name = "states")
    (hok : sectionErr deferTripletIndexes C s = none) (snap snap' : FullSnapshot C) :
    (applySection deferTripletIndexes s snap).value .states =
      (applySection deferTripletIndexes s snap').value .states := by
  have hk : SectionKind.ofName s.name = .field .states := by
    rw [hs]
    decide
  unfold applySection
  unfold sectionErr at hok
  cases hd : decodeSection C deferTripletIndexes s with
  | error e => rw [hd] at hok; cases hok
  | ok apply =>
    simp only [decodeSection, hk] at hd
    cases hv : C.decode .states s.body with
    | error e => rw [hv] at hd; cases hd
    | ok value =>
      rw [hv] at hd
      obtain rfl := Except.ok.inj hd
      simp only [FullSnapshot.value_set]

/-- Making the states finite once, after the last section of them, is enough. -/
lemma value_states_foldl (hne : ss ≠ []) (hs : ∀ s ∈ ss, s.name = "states")
    (hok : ∀ s ∈ ss, sectionErr deferTripletIndexes C s = none) (snap : FullSnapshot C) : C.sanitize
        ((ss.foldl (fun snap s => applySection deferTripletIndexes s snap) snap).value .states) =
      (wholeOf deferTripletIndexes ss snap).value .states := by
  obtain ⟨ss, s, rfl⟩ := (List.eq_nil_or_concat' ss).resolve_left hne
  have hname := hs s (by simp)
  rw [wholeOf, List.foldl_append, List.foldl_append]
  simp only [List.foldl_cons, List.foldl_nil]
  rw [applyFinite, if_pos hname, FullSnapshot.value_sanitizeStates]
  exact congrArg C.sanitize (value_applySection_states hname (hok s (by simp)) _ _)

/-- Publish sections in one go, and then make the states finite. -/
def publishAll (deferTripletIndexes : Bool) (ss : List Section) (snap : FullSnapshot C) :
    FullSnapshot C :=
  let published := ss.foldl (fun snap s => applySection deferTripletIndexes s snap) snap
  if ss.any fun s => s.name = "states" then published.sanitizeStates else published

/-- Where the sections for a field are all of a list, publishing makes of the field what the loop
makes of it. -/
lemma value_publishAll {ss all : List Section}
    (hf : (ss.filter fun s => targetOf s.name = some f) =
      all.filter fun s => targetOf s.name = some f)
    (hok : ∀ s ∈ ss, sectionErr deferTripletIndexes C s = none)
    {snap start : FullSnapshot C} (hv : snap.value f = start.value f) :
    (publishAll deferTripletIndexes ss snap).value f =
      (wholeOf deferTripletIndexes all start).value f := by
  have ha := writes_applySection (C := C) deferTripletIndexes
  have hb := writes_applyFinite (C := C) deferTripletIndexes
  have hraw : (ss.foldl (fun snap s => applySection deferTripletIndexes s snap) snap).value f =
      ((all.filter fun s => targetOf s.name = some f).foldl
        (fun snap s => applySection deferTripletIndexes s snap) start).value f := by
    rw [value_foldl ha, hf]
    exact value_foldl_congr ha _ hv
  rw [wholeOf, value_foldl hb]
  by_cases hstates : f = .states
  · subst hstates
    by_cases hany : (ss.any fun s => s.name = "states") = true
    · obtain ⟨s, hs, hname⟩ := List.any_eq_true.mp hany
      have hmem : s ∈ all.filter fun s => targetOf s.name = some .states := by
        rw [← hf]
        exact List.mem_filter.mpr ⟨hs, decide_eq_true (targetOf_eq_states.mpr
          (of_decide_eq_true hname))⟩
      rw [publishAll, if_pos hany, FullSnapshot.value_sanitizeStates, hraw]
      refine value_states_foldl (List.ne_nil_of_mem hmem) (fun s hs => ?_) (fun s hs => ?_) start
      · exact targetOf_eq_states.mp (of_decide_eq_true (List.mem_filter.mp hs).2)
      · rw [← hf] at hs
        exact hok s (List.mem_filter.mp hs).1
    · have hnil : (all.filter fun s => targetOf s.name = some .states) = [] := by
        rw [← hf, List.filter_eq_nil_iff]
        intro s hs ht
        exact hany (List.any_eq_true.mpr ⟨s, hs, decide_eq_true (targetOf_eq_states.mp
          (of_decide_eq_true ht))⟩)
      rw [publishAll, if_neg hany, hraw, hnil]
      rfl
  · have hsame : (publishAll deferTripletIndexes ss snap).value f =
        (ss.foldl (fun snap s => applySection deferTripletIndexes s snap) snap).value f := by
      unfold publishAll
      split
      · exact FullSnapshot.value_sanitizeStates_of_ne _ hstates
      · rfl
    rw [hsame, hraw]
    exact value_foldl_eq ha (value_applyFinite hstates) _ _

/-- Where there are no sections for a field, publishing leaves it. -/
lemma value_publishAll_of_nil (hf : (ss.filter fun s => targetOf s.name = some f) = [])
    (snap : FullSnapshot C) : (publishAll deferTripletIndexes ss snap).value f = snap.value f := by
  have hraw : (ss.foldl (fun snap s => applySection deferTripletIndexes s snap) snap).value f =
      snap.value f := by
    rw [value_foldl (writes_applySection (C := C) deferTripletIndexes), hf]
    rfl
  unfold publishAll
  split
  · next hany =>
    obtain ⟨s, hs, hname⟩ := List.any_eq_true.mp hany
    have hne : f ≠ .states := by
      rintro rfl
      exact List.filter_eq_nil_iff.mp hf s hs
        (decide_eq_true (targetOf_eq_states.mpr (of_decide_eq_true hname)))
    exact (FullSnapshot.value_sanitizeStates_of_ne _ hne).trans hraw
  · exact hraw

/-- The bodies that a publication takes. -/
def wantedHeads (p : MappedSnapshot C) (select : String → Bool) : List Section :=
  (p.slots.filter (wanted select)).map (·.head)

@[simp] lemma head_decodeSlot (select : String → Bool) (s : SectionSlot C) :
    (decodeSlot deferTripletIndexes select s).head = s.head := by
  unfold decodeSlot
  split <;> rfl

@[simp] lemma published_decodeSlot (select : String → Bool) (s : SectionSlot C) :
    (decodeSlot deferTripletIndexes select s).published = s.published := by
  unfold decodeSlot
  split <;> rfl

@[simp] lemma wanted_decodeSlot (select select' : String → Bool) (s : SectionSlot C) :
    wanted select (decodeSlot deferTripletIndexes select' s) = wanted select s := by
  rw [wanted, wanted, head_decodeSlot, published_decodeSlot]

variable {select : String → Bool}

/-- Decoding a section that is not published leaves it decoded or as it was. -/
lemma decoded_decodeSlot {s : SectionSlot C}
    (h : s.decoded = none ∨ s.decoded = some (decodeSection C deferTripletIndexes s.head)) :
    (decodeSlot deferTripletIndexes select s).decoded = none ∨
      (decodeSlot deferTripletIndexes select s).decoded =
        some (decodeSection C deferTripletIndexes s.head) := by
  unfold decodeSlot
  split
  · exact .inr rfl
  · exact h

/-- What a publication takes is decoded. -/
lemma decoded_of_wanted {s : SectionSlot C}
    (h : s.decoded = none ∨ s.decoded = some (decodeSection C deferTripletIndexes s.head))
    (hw : wanted select s = true) : (decodeSlot deferTripletIndexes (grouped select) s).decoded =
      some (decodeSection C deferTripletIndexes s.head) := by
  obtain ⟨hp, hg⟩ := Bool.and_eq_true_iff.mp hw
  unfold decodeSlot
  rcases h with h | h
  · rw [if_pos (by rw [h, hp, hg]; rfl)]
  · rw [if_neg (by rw [h]; simp), h]

lemma filter_decodeSelected (p : MappedSnapshot C) (select : String → Bool) :
    (p.decodeSelected (grouped select)).slots.filter (wanted select) =
      (p.slots.filter (wanted select)).map
        (decodeSlot p.deferTripletIndexes (grouped select)) := by
  rw [decodeSelected, List.filter_map]
  congr 1
  exact List.filter_congr fun s _ => wanted_decodeSlot ..

lemma wantedHeads_decodeSelected (p : MappedSnapshot C) (select : String → Bool) :
    wantedHeads (p.decodeSelected (grouped select)) select = wantedHeads p select := by
  rw [wantedHeads, wantedHeads, filter_decodeSelected, List.map_map]
  exact List.map_congr_left fun s _ => head_decodeSlot ..

variable {table : Except FieldError Unit} {done : SectionField → Bool} {start snap : FullSnapshot C}
    {p : MappedSnapshot C}

/-- What a publication does. -/
lemma publishSelected_eq (h : Staged deferTripletIndexes ss table start p snap done)
    (select : String → Bool) : p.publishSelected snap select =
      if p.failed then ((p, snap), .error (.manifest "snapshot publication already failed"))
      else
        match firstError deferTripletIndexes C (wantedHeads p select) with
        | some e => (({ p.decodeSelected (grouped select) with failed := true }, snap), .error e)
        | none =>
          (({ p.decodeSelected (grouped select) with
              slots := (p.decodeSelected (grouped select)).slots.map (publishSlot select) },
            publishAll deferTripletIndexes (wantedHeads p select) snap), .ok ()) := by
  have hdecoded : ∀ s ∈ (p.decodeSelected (grouped select)).slots.filter (wanted select),
      s.decoded = some (decodeSection C deferTripletIndexes s.head) := by
    intro s hs
    rw [filter_decodeSelected] at hs
    obtain ⟨s', hs', rfl⟩ := List.mem_map.mp hs
    obtain ⟨hmem, hw⟩ := List.mem_filter.mp hs'
    have hp : s'.published = false := by
      simpa using (Bool.and_eq_true_iff.mp hw).1
    rw [head_decodeSlot, h.deferred]
    exact decoded_of_wanted (h.decoded s' hmem hp) hw
  have hheads : ((p.decodeSelected (grouped select)).slots.filter (wanted select)).map (·.head) =
      wantedHeads p select := wantedHeads_decodeSelected p select
  have hany : (((p.decodeSelected (grouped select)).slots.filter (wanted select)).any
      fun s => s.head.name = "states") = (wantedHeads p select).any fun s => s.name = "states" := by
    rw [← hheads, List.any_map]
    rfl
  unfold publishSelected
  split
  · rfl
  · simp only [takeReady_eq hdecoded, hheads, hany]
    cases firstError deferTripletIndexes C (wantedHeads p select) with
    | some e => rfl
    | none => simp only [List.foldl_map, publishAll]

/-- Decoding ahead changes nothing of where a loader is. -/
lemma Staged.decodeSelected (h : Staged deferTripletIndexes ss table start p snap done)
    (select : String → Bool) :
    Staged deferTripletIndexes ss table start (p.decodeSelected select) snap done where
  heads := by
    rw [MappedSnapshot.decodeSelected, List.map_map, ← h.heads]
    exact List.map_congr_left fun s _ => head_decodeSlot ..
  deferred := h.deferred
  table := h.table
  decoded := by
    intro s hs hp
    obtain ⟨s', hs', rfl⟩ := List.mem_map.mp hs
    rw [published_decodeSlot] at hp
    rw [head_decodeSlot, h.deferred]
    exact decoded_decodeSlot (h.decoded s' hs' hp)
  published := by
    intro s hs hp
    obtain ⟨s', hs', rfl⟩ := List.mem_map.mp hs
    rw [published_decodeSlot] at hp
    rw [head_decodeSlot]
    exact h.published s' hs' hp
  group := by
    intro s hs f hf
    obtain ⟨s', hs', rfl⟩ := List.mem_map.mp hs
    rw [head_decodeSlot] at hf
    rw [published_decodeSlot]
    exact h.group s' hs' f hf
  value := h.value
  seqno := h.seqno
  failed := h.failed

/-- A publication takes all sections of a field or none. -/
lemma Staged.filter_wantedHeads (h : Staged deferTripletIndexes ss table start p snap done)
    (select : String → Bool) (f : SectionField) :
    ((wantedHeads p select).filter fun s => targetOf s.name = some f) =
      if !done f && grouped select f.name then ss.filter fun s => targetOf s.name = some f
      else [] := by
  have hw : ∀ s ∈ p.slots, targetOf s.head.name = some f →
      wanted select s = (!done f && grouped select f.name) := by
    intro s hs hf
    rw [wanted, h.group s hs f hf, grouped_of_targetOf hf]
  rw [wantedHeads, List.filter_map, List.filter_filter]
  split
  · next hall =>
    rw [← h.heads, List.filter_map]
    congr 1
    refine List.filter_congr fun s hs => ?_
    by_cases hf : targetOf s.head.name = some f
    · simp only [Function.comp_apply, hf, decide_true, Bool.true_and, hw s hs hf, hall]
    · simp only [Function.comp_apply, hf, decide_false, Bool.false_and]
  · next hnone =>
    rw [List.map_eq_nil_iff, List.filter_eq_nil_iff]
    intro s hs hboth
    obtain ⟨hf, hwanted⟩ := Bool.and_eq_true_iff.mp hboth
    exact hnone (hw s hs (of_decide_eq_true hf) ▸ hwanted)

lemma mem_wantedHeads (h : p.slots.map (·.head) = ss) {s : Section} (hs : s ∈ wantedHeads p select) :
    s ∈ ss := by
  obtain ⟨slot, hslot, rfl⟩ := List.mem_map.mp hs
  rw [← h]
  exact List.mem_map_of_mem (List.mem_filter.mp hslot).1

@[simp] lemma head_publishSlot (select : String → Bool) (s : SectionSlot C) :
    (publishSlot select s).head = s.head := by
  unfold publishSlot
  split <;> rfl

@[simp] lemma published_publishSlot (select : String → Bool) (s : SectionSlot C) :
    (publishSlot select s).published = (s.published || grouped select s.head.name) := by
  unfold publishSlot
  split
  · next hw => rw [(Bool.and_eq_true_iff.mp hw).2, Bool.or_true]
  · next hw =>
    unfold wanted at hw
    cases hp : s.published <;> cases hg : grouped select s.head.name <;> rw [hp, hg] at hw <;>
      first | rfl | exact absurd rfl hw

/-- Publishing a group whose bodies all decode. -/
lemma Staged.publish (h : Staged deferTripletIndexes ss table start p snap done)
    (hok : ∀ s ∈ wantedHeads p select, sectionErr deferTripletIndexes C s = none) :
    Staged deferTripletIndexes ss table start
      { p with slots := p.slots.map (publishSlot select) }
      (publishAll deferTripletIndexes (wantedHeads p select) snap)
      fun f => done f || grouped select f.name where
  heads := by
    rw [List.map_map, ← h.heads]
    exact List.map_congr_left fun s _ => head_publishSlot ..
  deferred := h.deferred
  table := h.table
  decoded := by
    intro s hs hp
    obtain ⟨s', hs', rfl⟩ := List.mem_map.mp hs
    unfold publishSlot at hp ⊢
    split at hp
    · cases hp
    · next hw =>
      rw [if_neg hw]
      exact h.decoded s' hs' hp
  published := by
    intro s hs hp
    obtain ⟨s', hs', rfl⟩ := List.mem_map.mp hs
    unfold publishSlot at hp ⊢
    split at hp
    · next hw =>
      have hmem : s'.head ∈ wantedHeads p select :=
        List.mem_map_of_mem (List.mem_filter.mpr ⟨hs', hw⟩)
      rw [if_pos hw]
      exact hok _ hmem
    · next hw =>
      rw [if_neg hw]
      exact h.published s' hs' hp
  group := by
    intro s hs f hf
    obtain ⟨s', hs', rfl⟩ := List.mem_map.mp hs
    rw [head_publishSlot] at hf
    rw [published_publishSlot, h.group s' hs' f hf, grouped_of_targetOf hf]
  value := by
    intro f
    have hfilter := h.filter_wantedHeads select f
    have hv := h.value f
    cases hdone : done f with
    | true =>
      rw [hdone] at hfilter hv
      rw [value_publishAll_of_nil hfilter, hv]
      rfl
    | false =>
      rw [hdone] at hfilter hv
      cases hg : grouped select f.name with
      | true =>
        rw [hg] at hfilter
        exact value_publishAll hfilter hok hv
      | false =>
        rw [hg] at hfilter
        rw [value_publishAll_of_nil hfilter, hv]
        rfl
  seqno := by
    have hseq := seqno_foldl (writes_applySection (C := C) deferTripletIndexes)
      (wantedHeads p select) snap
    unfold publishAll
    split
    · exact hseq.trans h.seqno
    · exact hseq.trans h.seqno
  failed := h.failed

/-- A publication that fails changes nothing; one that succeeds publishes its group. -/
lemma Staged.publishSelected (h : Staged deferTripletIndexes ss table start p snap done)
    (select : String → Bool) : (∃ e, (p.publishSelected snap select).2 = .error e ∧
        (p.publishSelected snap select).1.2 = snap ∧
        Staged deferTripletIndexes ss table start (p.publishSelected snap select).1.1 snap done ∧
        (∃ s ∈ ss, sectionErr deferTripletIndexes C s ≠ none) ∧
        (p.failed = false → firstError deferTripletIndexes C (wantedHeads p select) = some e)) ∨
      ((p.publishSelected snap select).2 = .ok () ∧
        firstError deferTripletIndexes C (wantedHeads p select) = none ∧
        Staged deferTripletIndexes ss table start (p.publishSelected snap select).1.1
          (p.publishSelected snap select).1.2 fun f => done f || grouped select f.name) := by
  rw [publishSelected_eq h]
  cases hfailed : p.failed with
  | true =>
    exact .inl ⟨_, rfl, rfl, h, h.failed hfailed, fun h => nomatch h⟩
  | false =>
    simp only [Bool.false_eq_true, if_false]
    cases hfirst : firstError deferTripletIndexes C (wantedHeads p select) with
    | some e =>
      have hbad : ∃ s ∈ ss, sectionErr deferTripletIndexes C s ≠ none := by
        obtain ⟨s, hs, he⟩ := List.exists_of_findSome?_eq_some hfirst
        exact ⟨s, mem_wantedHeads h.heads hs, by rw [he]; exact Option.some_ne_none e⟩
      exact .inl ⟨e, rfl, rfl, { h.decodeSelected _ with failed := fun _ => hbad }, hbad,
        fun _ => rfl⟩
    | none =>
      have hok := firstError_eq_none.mp hfirst
      have hq := h.decodeSelected (grouped select)
      rw [← wantedHeads_decodeSelected] at hok ⊢
      exact .inr ⟨rfl, rfl, hq.publish hok⟩

/-! ## Whole loads -/

/-- Nothing of a new file is published. -/
lemma staged_new (C : SnapshotCodec) (bytes : Bytes) (seqno : ℕ) (deferTripletIndexes : Bool)
    (start : FullSnapshot C) :
    Staged deferTripletIndexes (sectionTable bytes).1 (sectionTable bytes).2 start
      (.new C bytes seqno deferTripletIndexes) start fun _ => false where
  heads := by
    rw [MappedSnapshot.new, List.map_map]
    exact List.map_id _
  deferred := rfl
  table := rfl
  decoded := by
    intro s hs _
    obtain ⟨s', -, rfl⟩ := List.mem_map.mp hs
    exact .inl rfl
  published := by
    intro s hs hp
    obtain ⟨s', -, rfl⟩ := List.mem_map.mp hs
    cases hp
  group := by
    intro s hs f _
    obtain ⟨s', -, rfl⟩ := List.mem_map.mp hs
    rfl
  value _ := rfl
  seqno := rfl
  failed h := nomatch h

/-- Publications, whether they fail or not, leave a loader somewhere in the file. -/
lemma Staged.stage (h : Staged deferTripletIndexes ss table start p snap done)
    (selects : List (String → Bool)) :
    ∃ done', Staged deferTripletIndexes ss table start (p.stage snap selects).1
      (p.stage snap selects).2 done' := by
  induction selects generalizing p snap done with
  | nil => exact ⟨done, h⟩
  | cons select selects ih =>
    rcases h.publishSelected select with ⟨e, -, hsnap, hstaged, -⟩ | ⟨-, -, hstaged⟩
    · exact ih (hsnap.symm ▸ hstaged : Staged deferTripletIndexes ss table start
        (p.publishSelected snap select).1.1 (p.publishSelected snap select).1.2 done)
    · exact ih hstaged

/-- With everything published, a snapshot is what the loop makes. -/
lemma Staged.eq_wholeOf (h : Staged deferTripletIndexes ss table start p snap done)
    (hall : ∀ f, done f = true) : snap = wholeOf deferTripletIndexes ss start := by
  refine FullSnapshot.ext ?_ (funext fun f => ?_)
  · exact h.seqno.trans (seqno_foldl (writes_applyFinite deferTripletIndexes) ss start).symm
  · rw [h.value f, hall f]
    rfl

/-- The rest of the file is published if every section decodes and the table is well formed. -/
lemma Staged.finishInto (h : Staged deferTripletIndexes ss table start p snap done) :
    (firstError deferTripletIndexes C ss ≠ none ∧ ∃ e, (p.finishInto snap).2 = .error e) ∨
      (firstError deferTripletIndexes C ss = none ∧ (p.finishInto snap).2 = table ∧
        (p.finishInto snap).1 = wholeOf deferTripletIndexes ss start) := by
  unfold MappedSnapshot.finishInto
  rcases h.publishSelected fun _ => true with ⟨e, he, -, -, ⟨s, hs, hbad⟩, -⟩ | ⟨hok, -, hq⟩
  · refine .inl ⟨fun hnone => hbad (firstError_eq_none.mp hnone s hs), e, ?_⟩
    simp only [he]
    rfl
  · have hpublished : ∀ slot ∈ (p.publishSelected snap fun _ => true).1.1.slots,
        sectionErr deferTripletIndexes C slot.head = none := by
      intro slot hslot
      cases htarget : targetOf slot.head.name with
      | none => exact sectionErr_of_unknown htarget
      | some f =>
        refine hq.published slot hslot ?_
        rw [hq.group slot hslot f htarget, grouped, Bool.true_or, Bool.or_true]
    refine .inr ⟨firstError_eq_none.mpr fun s hs => ?_, ?_, hq.eq_wholeOf fun f => ?_⟩
    · rw [← hq.heads] at hs
      obtain ⟨slot, hslot, rfl⟩ := List.mem_map.mp hs
      exact hpublished slot hslot
    · simp only [hok]
      exact h.table
    · rw [grouped, Bool.true_or, Bool.or_true]

/-- Publishing a whole new file takes its sections as they stand. -/
lemma wantedHeads_new (bytes : Bytes) (seqno : ℕ) :
    wantedHeads (.new C bytes seqno deferTripletIndexes) (fun _ => true) =
      (sectionTable bytes).1 := by
  have hall : ((MappedSnapshot.new C bytes seqno deferTripletIndexes).slots.filter
      (wanted fun _ => true)) = (MappedSnapshot.new C bytes seqno deferTripletIndexes).slots := by
    rw [List.filter_eq_self]
    intro slot hslot
    obtain ⟨s, -, rfl⟩ := List.mem_map.mp hslot
    rfl
  rw [wantedHeads, hall]
  exact (staged_new C bytes seqno deferTripletIndexes (.empty C seqno)).heads

/-- A file is loaded as the loop loads it, with the same error. -/
lemma finish_new (C : SnapshotCodec) (bytes : Bytes) (seqno : ℕ) (deferTripletIndexes : Bool) :
    (MappedSnapshot.new C bytes seqno deferTripletIndexes).finish =
      serialLoop C deferTripletIndexes bytes (.empty C seqno) := by
  have hnew := staged_new C bytes seqno deferTripletIndexes (.empty C seqno)
  rw [serialLoop_eq]
  change ((MappedSnapshot.new C bytes seqno deferTripletIndexes).finishInto
    (.empty C seqno)).2.map (fun _ => ((MappedSnapshot.new C bytes seqno
      deferTripletIndexes).finishInto (.empty C seqno)).1) = _
  rcases hnew.publishSelected fun _ => true with
    ⟨e, he, -, -, -, hfirst⟩ | ⟨-, hfirst, -⟩
  · have hfirst := hfirst rfl
    rw [wantedHeads_new] at hfirst
    have hfin : ((MappedSnapshot.new C bytes seqno deferTripletIndexes).finishInto
        (.empty C seqno)).2 = .error e := by
      simp only [MappedSnapshot.finishInto, he]
      rfl
    rw [hfirst, hfin]
    rfl
  · rw [wantedHeads_new] at hfirst
    obtain ⟨-, htable, hwhole⟩ := hnew.finishInto.resolve_left fun h => h.1 hfirst
    rw [hfirst, htable, hwhole]
    rfl

/-- A publication that fails leaves the snapshot. -/
lemma publishSelected_error {snap : FullSnapshot C} {e : FieldError}
    (h : (p.publishSelected snap select).2 = .error e) :
    (p.publishSelected snap select).1.2 = snap := by
  unfold MappedSnapshot.publishSelected at h ⊢
  by_cases hf : p.failed = true
  · rw [if_pos hf]
  · rw [if_neg hf] at h ⊢
    dsimp only at h ⊢
    generalize takeReady _ = r at h ⊢
    cases r with
    | error e' => rfl
    | ok ready => cases h

/-- Where the loop succeeds it applies every section. -/
lemma eq_wholeOf_of_serialLoop {bytes : Bytes} {snap whole : FullSnapshot C}
    (h : serialLoop C deferTripletIndexes bytes snap = .ok whole) :
    wholeOf deferTripletIndexes (sectionTable bytes).1 snap = whole := by
  rw [serialLoop_eq] at h
  split at h
  · cases h
  · cases htable : (sectionTable bytes).2 with
    | error e => rw [htable] at h; cases h
    | ok u =>
      rw [htable] at h
      exact Except.ok.inj h

/-- **Sectioned snapshots decode alike on every path.**  Whatever groups are published first, the
rest of a file loads exactly if the loop over its sections succeeds, and then gives the same
snapshot; a file that is loaded at once gives the loop's error; a publication that fails changes
nothing; and a field without a section keeps what it was. -/
theorem sectioned_decode (C : SnapshotCodec) (bytes : Bytes) (seqno : ℕ)
    (deferTripletIndexes : Bool) :
    (∀ (selects : List (String → Bool)) (snap whole : FullSnapshot C),
      let staged := (MappedSnapshot.new C bytes seqno deferTripletIndexes).stage snap selects
      let finished := staged.1.finishInto staged.2
      finished.2 = .ok () ∧ finished.1 = whole ↔
        serialLoop C deferTripletIndexes bytes snap = .ok whole) ∧
    (MappedSnapshot.new C bytes seqno deferTripletIndexes).finish =
      serialLoop C deferTripletIndexes bytes (.empty C seqno) ∧
    (∀ (p : MappedSnapshot C) (snap : FullSnapshot C) (select : String → Bool) (e : FieldError),
      (p.publishSelected snap select).2 = .error e →
        (p.publishSelected snap select).1.2 = snap) ∧
    ∀ (snap whole : FullSnapshot C) (f : SectionField),
      serialLoop C deferTripletIndexes bytes snap = .ok whole →
      (∀ s ∈ (sectionTable bytes).1, targetOf s.name ≠ some f) → whole.value f = snap.value f := by
  refine ⟨fun selects snap whole => ?_, finish_new C bytes seqno deferTripletIndexes,
    fun p snap select e he => ?_, fun snap whole f h hmissing => ?_⟩
  · obtain ⟨done, hstaged⟩ :=
      (staged_new C bytes seqno deferTripletIndexes snap).stage selects
    rw [serialLoop_eq]
    dsimp only
    rcases hstaged.finishInto with ⟨hbad, e, he⟩ | ⟨hnone, htable, hwhole⟩
    · obtain ⟨e', he'⟩ := Option.ne_none_iff_exists'.mp hbad
      rw [he, he']
      constructor
      · rintro ⟨h, -⟩
        cases h
      · intro h
        cases h
    · rw [htable, hwhole, hnone]
      cases (sectionTable bytes).2 with
      | error e => constructor <;> intro h <;> [cases h.1; cases h]
      | ok u => exact ⟨fun h => congrArg Except.ok h.2, fun h => ⟨rfl, Except.ok.inj h⟩⟩
  · exact publishSelected_error he
  · rw [← eq_wholeOf_of_serialLoop h, wholeOf, value_foldl (writes_applyFinite deferTripletIndexes)]
    have hnil : ((sectionTable bytes).1.filter fun s => targetOf s.name = some f) = [] :=
      List.filter_eq_nil_iff.mpr fun s hs ht => hmissing s hs (of_decide_eq_true ht)
    rw [hnil]
    rfl

end Publish

end ChittaField
