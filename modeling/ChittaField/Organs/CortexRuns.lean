import ChittaField.Organs.Cortex

/-!
# Runs of the cortical index

Over any run the postings, the counts and the prototypes are those of the codes.  What is removed is no
more found, but its quantized residual stays: `cortex_forgets_iff`.
-/

namespace ChittaField

open HashMaps

namespace CorticalIndex

variable {F : Type} {A : CorticalArith F} {idx : CorticalIndex F} {m : ℕ}

/-! ## Runs -/

/-- What is done to the index. -/
inductive CorticalOp (F : Type)
  | index (memId : ℕ) (code : SparseCode F) (strength : F) (tsMs : ℤ) (kind : String)
  | indexWithAffect (memId : ℕ) (code : SparseCode F) (strength : F) (tsMs : ℤ) (kind : String)
      (affectArousal : F)
  | indexPq (memoryId : ℕ) (codes : PqCodes)
  | updateStrength (memId : ℕ) (strength : F)
  | remove (memId : ℕ)

def step (A : CorticalArith F) (idx : CorticalIndex F) : CorticalOp F → CorticalIndex F
  | .index memId code strength tsMs kind => idx.index A memId code strength tsMs kind
  | .indexWithAffect memId code strength tsMs kind affectArousal =>
    idx.indexWithAffect A memId code strength tsMs kind affectArousal
  | .indexPq memoryId codes => idx.indexPq memoryId codes
  | .updateStrength memId strength => idx.updateStrength A memId strength
  | .remove memId => idx.remove memId

def run (A : CorticalArith F) (vigilance : F) (ops : List (CorticalOp F)) : CorticalIndex F :=
  ops.foldl (step A) (new vigilance)

/-- An operation indexes a memory. -/
def CorticalOp.Indexes (m : ℕ) : CorticalOp F → Prop
  | .index memId .. => memId = m
  | .indexWithAffect memId .. => memId = m
  | _ => False

lemma Indexed.step (h : Indexed idx) (op : CorticalOp F) : Indexed (step A idx op) := by
  cases op with
  | index memId code strength tsMs kind => exact h.indexWithAffect memId code strength tsMs kind A.zero
  | indexWithAffect memId code strength tsMs kind affectArousal =>
    exact h.indexWithAffect memId code strength tsMs kind affectArousal
  | indexPq => exact ⟨h.listed, h.nodup, h.counted, h.total, h.uniform, h.gone⟩
  | updateStrength memId strength => exact h.updateStrength memId strength
  | remove memId => exact h.remove memId

lemma Indexed.foldl (h : Indexed idx) (ops : List (CorticalOp F)) :
    Indexed (ops.foldl (CorticalIndex.step A) idx) :=
  List.foldlRecOn ops _ h fun _ h op _ => h.step op

lemma indexed_run (vigilance : F) (ops : List (CorticalOp F)) : Indexed (run A vigilance ops) :=
  (indexed_new vigilance).foldl ops

/-- A memory is mentioned by a map of the index. -/
def Mentions (idx : CorticalIndex F) (m : ℕ) : Prop :=
  (∃ f, ∃ e ∈ idx.bucket f, e.memId = m) ∨ (idx.memCodes.lookup m).isSome ∨ (idx.memTs.lookup m).isSome ∨
    (idx.memKind.lookup m).isSome ∨ (idx.memPq.lookup m).isSome ∨
    (idx.prototypeIdx.memToProto.lookup m).isSome

/-- What has no code is mentioned by the quantized residuals alone. -/
lemma Indexed.mentions_iff (h : Indexed idx) (hm : idx.memCodes.lookup m = none) :
    idx.Mentions m ↔ (idx.memPq.lookup m).isSome := by
  obtain ⟨hts, hkind, hproto⟩ := h.gone m hm
  have hpostings : ¬∃ f, ∃ e ∈ idx.bucket f, e.memId = m := by
    rintro ⟨f, e, he, heq⟩
    exact h.not_mem_bucket hm e he heq
  unfold Mentions
  rw [hm, hts, hkind, hproto]
  simp [hpostings]

/-- Only what is indexed gets a code. -/
lemma Indexed.memCodes_step (h : Indexed idx) {op : CorticalOp F} (hop : ¬op.Indexes m)
    (hm : idx.memCodes.lookup m = none) : (CorticalIndex.step A idx op).memCodes.lookup m = none := by
  have haffect : ∀ memId code strength tsMs kind arousal, memId ≠ m →
      (idx.indexWithAffect A memId code strength tsMs kind arousal).memCodes.lookup m = none := by
    intro memId code strength tsMs kind arousal hne
    unfold CorticalIndex.indexWithAffect
    split_ifs
    · exact hm
    · rw [(indexNew_maps _).1, Finmap.lookup_insert_of_ne _ (Ne.symm hne), (h.remove_spec memId).2.2.1,
        Finmap.lookup_erase_ne (Ne.symm hne)]
      exact hm
    · rw [(indexNew_maps _).1, Finmap.lookup_insert_of_ne _ (Ne.symm hne)]
      exact hm
  cases op with
  | index memId code strength tsMs kind => exact haffect memId code strength tsMs kind A.zero hop
  | indexWithAffect memId code strength tsMs kind arousal =>
    exact haffect memId code strength tsMs kind arousal hop
  | indexPq => exact hm
  | updateStrength memId strength =>
    change ((idx.updateStrength A memId strength).memCodes).lookup m = none
    rw [(framed_updateStrength idx memId strength).memCodes]
    exact hm
  | remove memId =>
    change ((idx.remove memId).memCodes).lookup m = none
    rw [(h.remove_spec memId).2.2.1]
    by_cases hmem : m = memId
    · rw [hmem, Finmap.lookup_erase]
    · rw [Finmap.lookup_erase_ne hmem]
      exact hm

/-- Nothing is ever taken out of the quantized residuals. -/
lemma Indexed.memPq_step (h : Indexed idx) (op : CorticalOp F) :
    ((CorticalIndex.step A idx op).memPq.lookup m).isSome ↔
      (idx.memPq.lookup m).isSome ∨ ∃ codes, op = .indexPq m codes := by
  have haffect : ∀ memId code strength tsMs kind arousal,
      (idx.indexWithAffect A memId code strength tsMs kind arousal).memPq = idx.memPq := by
    intro memId code strength tsMs kind arousal
    unfold CorticalIndex.indexWithAffect
    split_ifs
    · rfl
    · rw [(indexNew_maps _).2]
      exact (h.remove_spec memId).2.2.2.2.2.2.2
    · exact (indexNew_maps _).2
  cases op with
  | index =>
    rw [CorticalIndex.step, CorticalIndex.index, haffect]
    simp
  | indexWithAffect =>
    rw [CorticalIndex.step, haffect]
    simp
  | indexPq memoryId codes =>
    change ((idx.memPq.insert memoryId codes).lookup m).isSome ↔ _
    by_cases hm : m = memoryId
    · rw [hm, Finmap.lookup_insert]
      simp
    · rw [Finmap.lookup_insert_of_ne _ hm]
      simp [Ne.symm hm]
  | updateStrength memId strength =>
    rw [CorticalIndex.step, (framed_updateStrength idx memId strength).memPq]
    simp
  | remove memId =>
    rw [CorticalIndex.step, (h.remove_spec memId).2.2.2.2.2.2.2]
    simp

lemma memPq_run (vigilance : F) (ops : List (CorticalOp F)) :
    ((run A vigilance ops).memPq.lookup m).isSome ↔ ∃ codes, .indexPq m codes ∈ ops := by
  have hfold : ∀ (ops : List (CorticalOp F)) (idx : CorticalIndex F), Indexed idx →
      (((ops.foldl (step A) idx).memPq.lookup m).isSome ↔
        (idx.memPq.lookup m).isSome ∨ ∃ codes, .indexPq m codes ∈ ops) := by
    intro ops
    induction ops with
    | nil => simp
    | cons op ops ih =>
      intro idx h
      rw [List.foldl_cons, ih _ (h.step op), h.memPq_step, or_assoc, ← exists_or]
      refine or_congr_right (exists_congr fun codes => ?_)
      rw [List.mem_cons, eq_comm]
  rw [run, hfold ops _ (indexed_new vigilance), new, Finmap.lookup_empty]
  simp

/-! ## Searches find what is posted -/

/-- Candidates are posted for a feature. -/
def Posted (idx : CorticalIndex F) (s : Scores F) : Prop :=
  ∀ m, (s.scores.lookup m).isSome → ∃ f, ∃ e ∈ idx.bucket f, e.memId = m

lemma Posted.scoreFeature {s : Scores F} (h : Posted idx s) (allowed : Option (Finset ℕ)) (p : ℕ × F) :
    Posted idx (scoreFeature A idx allowed s p) := by
  refine List.foldlRecOn (motive := Posted idx) (idx.bucket p.1) _ h fun s h e he m hm => ?_
  unfold scoreEntry at hm
  split_ifs at hm
  · by_cases heq : m = e.memId
    · exact ⟨p.1, e, he, heq.symm⟩
    · rw [Finmap.lookup_insert_of_ne _ heq] at hm
      exact h m hm
  · exact h m hm

/-- What a search finds is posted for a feature. -/
lemma exists_of_mem_search {order : KeyOrder ℕ} {queryCode : SparseCode F} {k : ℕ}
    {allowed : Option (Finset ℕ)} (hm : m ∈ (search A order idx queryCode k allowed).map (·.1)) :
    ∃ f, ∃ e ∈ idx.bucket f, e.memId = m := by
  unfold search at hm
  split_ifs at hm
  · cases hm
  · obtain ⟨r, hr, rfl⟩ := List.mem_map.mp hm
    have hr' := List.mem_mergeSort.mp (List.mem_of_mem_take hr)
    obtain ⟨e, he, rfl⟩ := List.mem_map.mp hr'
    refine List.foldlRecOn (motive := Posted idx) _ _ (fun m hm => ?_)
      (fun _ h p _ => h.scoreFeature allowed p) e.1 (by rw [mem_entries.mp he]; rfl)
    rw [Finmap.lookup_empty] at hm
    cases hm

/-! ## The index is consistent -/

/-- Features are counted as they are posted and as codes have them, memories as they have codes, and the
entries of a memory agree. -/
structure Consistent (idx : CorticalIndex F) : Prop where
  posted : ∀ f, idx.frequency f = (idx.bucket f).length
  coded : ∀ f, (idx.bucket f).length =
    (idx.memCodes.keys.filter fun m => (idx.memCodes.lookup m).any (f ∈ ·.featureIds)).card
  total : idx.nMemories = idx.memCodes.keys.card
  uniform : ∀ m, ∃ strengthQ protoId, ∀ f, ∀ e ∈ idx.bucket f, e.memId = m →
    e.strengthQ = strengthQ ∧ e.protoId = protoId

lemma Indexed.consistent (h : Indexed idx) : Consistent idx := by
  refine ⟨h.counted, fun f => ?_, h.total, fun m => ?_⟩
  · rw [← List.length_map (·.memId), ← List.toFinset_card_of_nodup (h.nodup f)]
    congr 1
    ext m
    rw [List.mem_toFinset, h.listed, Finset.mem_filter, mem_keys_iff]
    cases idx.memCodes.lookup m with
    | none => simp
    | some code => simp
  · cases hm : idx.memCodes.lookup m with
    | none => exact ⟨0, 0, fun f e he heq => absurd heq (h.not_mem_bucket hm e he)⟩
    | some code =>
      obtain ⟨strengthQ, protoId, -, hentries⟩ := h.uniform m code hm
      exact ⟨strengthQ, protoId, hentries⟩

/-- Every run leaves the index consistent and hides from searches what was removed and not indexed again.
No map mentions it exactly if it was never given a quantized residual. -/
theorem cortex_forgets_iff (A : CorticalArith F) (vigilance : F) :
    (∀ ops, Consistent (run A vigilance ops)) ∧
    ∀ earlier later m, (∀ op ∈ later, ¬op.Indexes m) →
      (¬(run A vigilance (earlier ++ .remove m :: later)).Mentions m ↔
        ∀ codes, .indexPq m codes ∉ earlier ++ later) ∧
      ∀ order queryCode k allowed,
        m ∉ (search A order (run A vigilance (earlier ++ .remove m :: later)) queryCode k allowed).map
          (·.1) := by
  refine ⟨fun ops => (indexed_run vigilance ops).consistent, fun earlier later m hlater => ?_⟩
  have hindexed := indexed_run (A := A) vigilance (earlier ++ .remove m :: later)
  have hgone : (run A vigilance (earlier ++ .remove m :: later)).memCodes.lookup m = none := by
    have hfold : ∀ (ops : List (CorticalOp F)) (idx : CorticalIndex F), Indexed idx →
        (∀ op ∈ ops, ¬op.Indexes m) → idx.memCodes.lookup m = none →
        (ops.foldl (step A) idx).memCodes.lookup m = none := by
      intro ops
      induction ops with
      | nil => exact fun idx _ _ hm => hm
      | cons op ops ih =>
        intro idx h hops hm
        obtain ⟨hhead, htail⟩ := List.forall_mem_cons.mp hops
        exact ih _ (h.step op) htail (h.memCodes_step hhead hm)
    have hearlier := indexed_run (A := A) vigilance earlier
    rw [run, List.foldl_append, List.foldl_cons]
    refine hfold later _ (hearlier.step _) hlater ?_
    change ((run A vigilance earlier).remove m).memCodes.lookup m = none
    rw [(hearlier.remove_spec m).2.2.1, Finmap.lookup_erase]
  refine ⟨?_, fun order queryCode k allowed hmem => ?_⟩
  · rw [hindexed.mentions_iff hgone, memPq_run, not_exists]
    refine forall_congr' fun codes => not_congr ?_
    simp
  · obtain ⟨f, e, he, heq⟩ := exists_of_mem_search hmem
    exact hindexed.not_mem_bucket hgone e he heq

/-- Numbers as activations. -/
def natArith : CorticalArith ℕ where
  zero := 0
  one := 1
  half := 1
  negInfinity := 0
  add := (· + ·)
  totalCmp := compare
  ge x y := decide (y ≤ x)
  quantize x := x
  quantizeUnit x := x
  unquantize x := x
  sparseDot _ _ := 1
  normalized code := code
  updateCentroid centroid _ _ := centroid
  weight _ _ x := x
  term _ _ x _ := x
  overNorm x _ := x
  transitionBonus x := x
  recency _ := 0
  score a b c d e := a + b + c + d + e

def oneFeature : SparseCode ℕ := ⟨[3], [1], rfl, List.nodup_singleton 3⟩

/-- Two memories with a common feature, of which one is removed, and the other one gets a residual and
is indexed again. -/
theorem cortex_forgets_one :
    let idx := run natArith 1 ([.index 7 oneFeature 1 0 "episode", .index 8 oneFeature 1 0 "episode"] ++
      .remove 7 :: [.indexPq 8 (Vector.replicate 32 0), .index 8 oneFeature 2 0 "episode"])
    Consistent idx ∧ ¬idx.Mentions 7 ∧ idx.Mentions 8 := by
  intro idx
  obtain ⟨hconsistent, hforgets⟩ := cortex_forgets_iff natArith 1
  refine ⟨hconsistent _, (hforgets _ _ 7 ?_).1.mpr fun codes => by simp, ?_⟩
  · simp [CorticalOp.Indexes]
  · exact Or.inr (Or.inr (Or.inr (Or.inr (Or.inl (by decide +kernel)))))

/-- A memory with a quantized residual that is removed. -/
theorem cortex_remembers_residual :
    (run natArith 1 [.index 7 oneFeature 1 0 "episode", .indexPq 7 (Vector.replicate 32 0),
      .remove 7]).Mentions 7 := by
  refine Or.inr (Or.inr (Or.inr (Or.inr (Or.inl ?_))))
  decide +kernel

end CorticalIndex

end ChittaField
