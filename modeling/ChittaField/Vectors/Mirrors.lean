import ChittaField.Vectors.Index

/-!
# Derived indexes

What is derived from the embeddings is kept beside them by every write, and rebuilt where its size does
not fit.  `mirrors_iff` says that it mirrors the embeddings behind every step of a run iff embeddings
of another length are only purged where there are none of them, or no others: such a purge empties the
buckets and the vector of codes, and leaves the assignments and codes of the embeddings that stay.
-/

namespace ChittaField.Vectors

open HashMaps Inverted

/-! ## Assignments -/

section Assignments

variable {m : Finmap fun _ : ℕ => List ℕ} {κ : Type*} (f : List ℕ → List κ)

/-- The assignments behind an insertion. -/
lemma assigned_insert (id : ℕ) (keys : List ℕ) :
    (fun x => f (((m.insert id keys).lookup x).getD [])) =
      Function.update (fun x => f ((m.lookup x).getD [])) id (f keys) := by
  funext x
  rw [Function.update_apply]
  split_ifs with hx
  · rw [hx, Finmap.lookup_insert]
    rfl
  · rw [Finmap.lookup_insert_of_ne _ hx]

lemma assigned_erase (hf : f [] = []) (id : ℕ) :
    (fun x => f (((m.erase id).lookup x).getD [])) =
      Function.update (fun x => f ((m.lookup x).getD [])) id [] := by
  funext x
  rw [Function.update_apply]
  split_ifs with hx
  · rw [hx, Finmap.lookup_erase]
    exact hf
  · rw [Finmap.lookup_erase_ne hx]

lemma assigned_of_notMem {id : ℕ} (h : id ∉ m.keys) : (m.lookup id).getD [] = [] := by
  rw [lookup_eq_none_iff.mpr h]
  rfl

end Assignments

lemma nodup_lshKeys (signatures : List ℕ) : (lshKeys signatures).Nodup := by
  have hfst : (lshKeys signatures).map (·.1) = List.range' 0 signatures.length := by
    rw [lshKeys, List.map_map]
    exact List.zipIdx_map_snd 0 signatures
  exact List.Nodup.of_map (·.1) (hfst ▸ List.nodup_range')

section Runs

variable {S F C : Type*} {vm : VectorMath S F C} {order : Orders} {s : SemanticIndex S C} {id : ℕ}

variable (vm) in
/-- The nearest centroids are different ones. -/
lemma nodup_assignCoarse (embedding : List S) : (vm.assignCoarse embedding).Nodup := by
  unfold VectorMath.assignCoarse VectorMath.chooseProbeIds
  dsimp only
  have hids : ((vm.coarseCentroids.zipIdx.map fun p => (vm.dot embedding p.1, p.2 % 2 ^ 16)).map
      (·.2)) = List.range' 0 256 := by
    rw [List.map_map]
    have hsmall : ∀ p ∈ vm.coarseCentroids.zipIdx,
        ((fun q : F × ℕ => q.2) ∘ fun p : List S × ℕ => (vm.dot embedding p.1, p.2 % 2 ^ 16)) p =
          p.2 := by
      intro p hp
      have hlt := List.snd_lt_of_mem_zipIdx hp
      rw [vm.length_coarseCentroids] at hlt
      exact Nat.mod_eq_of_lt (by omega)
    rw [List.map_congr_left hsmall, List.zipIdx_map_snd, vm.length_coarseCentroids]
  have hnodup := hids ▸ (List.nodup_range' : (List.range' 0 256).Nodup)
  exact (((List.perm_insertionSort _ _).map _).nodup_iff.mpr hnodup).sublist
    ((List.take_sublist _ _).map _)

/-! ## Shape -/

/-- What holds in any case: embeddings have centroids and signatures, and nothing else has. -/
structure Shape (s : SemanticIndex S C) : Prop where
  coarse : s.memCoarse.keys = s.embeddings.keys
  lsh : s.memLsh.keys = s.embeddings.keys
  codes : s.binaryCodes.keys ⊆ s.embeddings.keys
  signed : ∀ id signatures, s.memLsh.lookup id = some signatures → signatures.length = 4

lemma length_assignLsh (embedding : List S) : (vm.assignLsh embedding).length = 4 := by
  rw [VectorMath.assignLsh, List.length_map, vm.length_lshPlanes]

namespace SemanticIndex

lemma keys_binarizeAll : (s.binarizeAll vm order).binaryCodes.keys = s.embeddings.keys :=
  keys_collect_map order.embeddings _

/-- The vector of codes has each code once. -/
lemma placed_placeCodes (order : Orders) (s : SemanticIndex S C) :
    (s.placeCodes order).binaryVec.Exact ∧
      ∀ id, id ∈ (s.placeCodes order).binaryVec.vec.map (·.1) ↔ id ∈ s.binaryCodes.keys := by
  have hnodup : ((entries order.codes s.binaryCodes).map (·.1)).Nodup := by
    rw [map_fst_entries]
    exact order.codes.nodup _
  obtain ⟨hexact, hvec⟩ := Placed.exact_foldl_push hnodup
  refine ⟨hexact, fun id => ?_⟩
  rw [placeCodes, hvec, map_fst_entries]
  exact order.codes.mem _ id

/-- What looking at the mean again leaves alone. -/
lemma maybeRefreshCentroid_cases (vm : VectorMath S F C) (order : Orders) (s : SemanticIndex S C) :
    (∃ writes, s.maybeRefreshCentroid vm order = { s with centroidStaleWrites := writes }) ∨
      ∃ centroid, s.maybeRefreshCentroid vm order =
        { s with centroidStaleWrites := 0, centroid := centroid }.rebinarizeAll vm order := by
  unfold maybeRefreshCentroid
  dsimp only
  split_ifs
  · exact Or.inl ⟨s.centroidStaleWrites, rfl⟩
  · exact Or.inl ⟨_, rfl⟩
  · exact Or.inl ⟨_, rfl⟩
  · exact Or.inr ⟨_, rfl⟩

end SemanticIndex

lemma Mirrors.rebinarizeAll (h : Mirrors s) : Mirrors (s.rebinarizeAll vm order) :=
  ⟨(SemanticIndex.placed_placeCodes order (s.binarizeAll vm order)).1,
    (SemanticIndex.placed_placeCodes order (s.binarizeAll vm order)).2, h.coarse, h.lsh, h.realms⟩

/-- A new centroid makes all codes anew. -/
lemma Mirrors.maybeRefreshCentroid (h : Mirrors s) : Mirrors (s.maybeRefreshCentroid vm order) := by
  rcases s.maybeRefreshCentroid_cases vm order with ⟨writes, heq⟩ | ⟨centroid, heq⟩
  · rw [heq]
    exact ⟨h.positions, h.codes, h.coarse, h.lsh, h.realms⟩
  · rw [heq]
    exact Mirrors.rebinarizeAll ⟨h.positions, h.codes, h.coarse, h.lsh, h.realms⟩

lemma Shape.maybeRefreshCentroid (h : Shape s) : Shape (s.maybeRefreshCentroid vm order) := by
  rcases s.maybeRefreshCentroid_cases vm order with ⟨writes, heq⟩ | ⟨centroid, heq⟩
  · rw [heq]
    exact ⟨h.coarse, h.lsh, h.codes, h.signed⟩
  · rw [heq]
    exact ⟨h.coarse, h.lsh, (keys_collect_map order.embeddings _).subset, h.signed⟩

/-! ## Removing -/

/-- A vector leaves its realm. -/
lemma Mirrors.leaveRealm (h : Mirrors s) (id : ℕ) : Mirrors (s.leaveRealm id) := by
  unfold SemanticIndex.leaveRealm
  split
  · rename_i old hold
    refine ⟨h.positions, h.codes, h.coarse, h.lsh, fun realm => ?_⟩
    have hmembers : (s.perIdRealm.erase id).keys.filter
        (fun x => (s.perIdRealm.erase id).lookup x = some realm) = (s.members realm).erase id := by
      ext x
      rw [Finset.mem_filter, Finset.mem_erase, SemanticIndex.members, Finset.mem_filter,
        Finmap.keys_erase, Finset.mem_erase]
      by_cases hx : x = id
      · simp [hx]
      · simp [hx, Finmap.lookup_erase_ne hx]
    rw [SemanticIndex.members, hmembers]
    dsimp only
    rw [Function.update_apply]
    split_ifs with hrealm
    · have hmem : id ∈ s.members realm := by
        rw [SemanticIndex.members, Finset.mem_filter, mem_keys_iff, hold, hrealm]
        exact ⟨rfl, rfl⟩
      rw [Finset.card_erase_of_mem hmem, hrealm, ← h.realms old]
      cases s.perRealmCounts old with
      | none => rfl
      | some count => rfl
    · have hmem : id ∉ s.members realm := by
        rw [SemanticIndex.members, Finset.mem_filter, hold]
        exact fun hboth => hrealm (Option.some.inj hboth.2).symm
      rw [Finset.erase_eq_of_notMem hmem]
      exact h.realms realm
  · exact h

/-- A vector leaves all structures. -/
lemma Mirrors.takeOut (h : Mirrors s) (id : ℕ) : Mirrors (s.takeOut id) := by
  refine ⟨h.positions.swapRemove id, fun x => ?_, ?_, ?_, h.realms⟩
  · rw [SemanticIndex.takeOut, h.positions.mem_swapRemove, h.codes, Finmap.keys_erase,
      Finset.mem_erase, and_comm]
  · have hdrop := h.coarse.drop (x := id) rfl
    rwa [← assigned_erase (fun keys => keys) rfl] at hdrop
  · have hdrop := h.lsh.drop (x := id) rfl
    rwa [← assigned_erase lshKeys rfl] at hdrop

lemma Shape.takeOut (h : Shape s) (id : ℕ) : Shape (s.takeOut id) := by
  refine ⟨?_, ?_, fun x hx => ?_, fun x signatures hx => ?_⟩
  · rw [SemanticIndex.takeOut, Finmap.keys_erase, Finmap.keys_erase, h.coarse]
  · rw [SemanticIndex.takeOut, Finmap.keys_erase, Finmap.keys_erase, h.lsh]
  · rw [SemanticIndex.takeOut, Finmap.keys_erase, Finset.mem_erase] at hx ⊢
    exact ⟨hx.1, h.codes hx.2⟩
  · unfold SemanticIndex.takeOut at hx
    by_cases hxid : x = id
    · subst hxid
      exact absurd (Finmap.lookup_erase x s.memLsh ▸ hx) (by simp)
    · exact h.signed x signatures (Finmap.lookup_erase_ne hxid ▸ hx)

/-- What is left of a memory that was removed: nothing. -/
structure Gone (s : SemanticIndex S C) (id : ℕ) : Prop where
  embeddings : id ∉ s.embeddings.keys
  realm : id ∉ s.perIdRealm.keys

lemma Gone.maybeRefreshCentroid (h : Gone s id) : Gone (s.maybeRefreshCentroid vm order) id := by
  rcases s.maybeRefreshCentroid_cases vm order with ⟨writes, heq⟩ | ⟨centroid, heq⟩
  · rw [heq]
    exact ⟨h.embeddings, h.realm⟩
  · rw [heq]
    exact ⟨h.embeddings, h.realm⟩

variable (vm order) in
lemma gone_remove (s : SemanticIndex S C) (id : ℕ) : Gone (s.remove vm order id) id := by
  refine Gone.maybeRefreshCentroid ⟨?_, ?_⟩
  · rw [SemanticIndex.takeOut, Finmap.keys_erase]
    exact Finset.notMem_erase _ _
  · have hleft : id ∉ (s.leaveRealm id).perIdRealm.keys := by
      unfold SemanticIndex.leaveRealm
      split
      · rw [Finmap.keys_erase]
        exact Finset.notMem_erase _ _
      · rename_i hnone
        exact lookup_eq_none_iff.mp hnone
    exact hleft

lemma shape_leaveRealm (h : Shape s) (id : ℕ) : Shape (s.leaveRealm id) := by
  unfold SemanticIndex.leaveRealm
  split
  · exact ⟨h.coarse, h.lsh, h.codes, h.signed⟩
  · exact h

variable (vm order) in
lemma Mirrors.remove (h : Mirrors s) (id : ℕ) : Mirrors (s.remove vm order id) :=
  ((h.leaveRealm id).takeOut id).maybeRefreshCentroid

variable (vm order) in
lemma Shape.remove (h : Shape s) (id : ℕ) : Shape (s.remove vm order id) :=
  ((shape_leaveRealm h id).takeOut id).maybeRefreshCentroid

/-! ## Writing -/

/-- The embeddings themselves are not derived. -/
lemma Mirrors.withEmbeddings (h : Mirrors s) (embeddings : Finmap fun _ : ℕ => List S) :
    Mirrors { s with embeddings := embeddings } :=
  ⟨h.positions, h.codes, h.coarse, h.lsh, h.realms⟩

/-- Centroids and signatures that are given to a new memory. -/
lemma Mirrors.assign (h : Mirrors s) {coarse : List ℕ} (hcoarse : id ∉ s.memCoarse.keys)
    (hlsh : id ∉ s.memLsh.keys) (hnodup : coarse.Nodup) (lsh : List ℕ) :
    Mirrors { s with
      coarseMembers := add id coarse s.coarseMembers
      memCoarse := s.memCoarse.insert id coarse
      lshBuckets := add id (lshKeys lsh) s.lshBuckets
      memLsh := s.memLsh.insert id lsh } := by
  refine ⟨h.positions, h.codes, ?_, ?_, h.realms⟩
  · have hadd := h.coarse.add (assigned_of_notMem hcoarse) hnodup
    rwa [← assigned_insert fun keys => keys] at hadd
  · have hadd := h.lsh.add (by rw [assigned_of_notMem hlsh]; rfl) (nodup_lshKeys lsh)
    rwa [← assigned_insert lshKeys] at hadd

/-- A code that is given to a new memory. -/
lemma Mirrors.placeCode (h : Mirrors s) (hid : id ∉ s.binaryCodes.keys) (code : C) :
    Mirrors (s.placeCode id code) := by
  have hpos : s.binaryVec.pos id = none := by
    rw [← h.codes, h.positions.mem_iff, Bool.not_eq_true, Option.isSome_eq_false_iff,
      Option.isNone_iff_eq_none] at hid
    exact hid
  have hplace : (s.placeCode id code).binaryVec = s.binaryVec.push id code := by
    rw [SemanticIndex.placeCode, hpos]
  refine ⟨hplace ▸ h.positions.push hpos, fun x => ?_, h.coarse, h.lsh, h.realms⟩
  rw [hplace, Placed.map_push, List.mem_append, h.codes, List.mem_singleton,
    SemanticIndex.placeCode, keys_insert, Finset.mem_insert, or_comm]

/-- A vector joins a realm. -/
lemma Mirrors.joinRealm (h : Mirrors s) (hid : id ∉ s.perIdRealm.keys) (realm : Option String) :
    Mirrors (s.joinRealm id realm) := by
  cases realm with
  | none => exact h
  | some new =>
    refine ⟨h.positions, h.codes, h.coarse, h.lsh, fun realm => ?_⟩
    have hmembers : (s.joinRealm id (some new)).members realm =
        if realm = new then insert id (s.members realm) else s.members realm := by
      ext x
      rw [SemanticIndex.joinRealm, SemanticIndex.members, Finset.mem_filter, keys_insert,
        Finset.mem_insert]
      dsimp only
      by_cases hx : x = id
      · subst hx
        have hout : x ∉ s.members realm := fun hmem => hid (Finset.mem_filter.mp hmem).1
        rw [Finmap.lookup_insert]
        split_ifs with hrealm
        · simp [hrealm]
        · simp [hout, Ne.symm hrealm]
      · rw [Finmap.lookup_insert_of_ne _ hx]
        split_ifs with hrealm
        · simp [hx, SemanticIndex.members]
        · simp [hx, SemanticIndex.members]
    have hout : id ∉ s.members realm := fun hmem => hid (Finset.mem_filter.mp hmem).1
    rw [hmembers, SemanticIndex.joinRealm]
    dsimp only
    rw [Function.update_apply]
    split_ifs with hrealm
    · rw [Finset.card_insert_of_notMem hout, hrealm, ← h.realms new]
      rfl
    · exact h.realms realm

/-- An upsert takes a vector out and puts the new one in. -/
lemma Mirrors.upsertMeta (h : Mirrors s) (hshape : Shape s) (id : ℕ) (embedding : List S)
    (realm : Option String) : Mirrors (s.upsertMeta vm order id embedding realm) := by
  have hremoved := h.remove vm order id
  have hshape := hshape.remove vm order id
  obtain ⟨hembeddings, hrealm⟩ := gone_remove vm order s id
  unfold SemanticIndex.upsertMeta
  dsimp only
  have hassigned := hremoved.assign
    (hshape.coarse ▸ hembeddings) (hshape.lsh ▸ hembeddings)
    (nodup_assignCoarse vm (vm.normalize embedding)) (vm.assignLsh (vm.normalize embedding))
  split_ifs
  · have hplaced := hassigned.placeCode (fun hid => hembeddings (hshape.codes hid))
      (vm.binarizeCentered (vm.normalize embedding) (s.remove vm order id).centroid)
    exact (hplaced.withEmbeddings _).joinRealm hrealm realm
  · exact (hassigned.withEmbeddings _).joinRealm hrealm realm

lemma shape_joinRealm (h : Shape s) (realm : Option String) : Shape (s.joinRealm id realm) := by
  cases realm with
  | none => exact h
  | some new => exact ⟨h.coarse, h.lsh, h.codes, h.signed⟩

lemma Shape.upsertMeta (h : Shape s) (id : ℕ) (embedding : List S) (realm : Option String) :
    Shape (s.upsertMeta vm order id embedding realm) := by
  have hremoved := h.remove vm order id
  have hsigned : ∀ x signatures, ((s.remove vm order id).memLsh.insert id
      (vm.assignLsh (vm.normalize embedding))).lookup x = some signatures → signatures.length = 4 := by
    intro x signatures hx
    by_cases hxid : x = id
    · rw [hxid, Finmap.lookup_insert] at hx
      exact Option.some.inj hx ▸ length_assignLsh _
    · exact hremoved.signed x signatures (Finmap.lookup_insert_of_ne _ hxid ▸ hx)
  unfold SemanticIndex.upsertMeta
  dsimp only
  refine shape_joinRealm ?_ realm
  split_ifs
  · refine ⟨?_, ?_, ?_, hsigned⟩
    · rw [keys_insert, SemanticIndex.placeCode, keys_insert, hremoved.coarse]
    · rw [keys_insert, SemanticIndex.placeCode, keys_insert, hremoved.lsh]
    · rw [keys_insert, SemanticIndex.placeCode, keys_insert]
      exact Finset.insert_subset_insert _ hremoved.codes
  · refine ⟨?_, ?_, ?_, hsigned⟩
    · rw [keys_insert, keys_insert, hremoved.coarse]
    · rw [keys_insert, keys_insert, hremoved.lsh]
    · rw [keys_insert]
      exact hremoved.codes.trans (Finset.subset_insert _ _)

/-! ## Rebuilding -/

/-- Things that are assigned again, one after the other. -/
lemma inverse_rebuilt {κ : Type*} [DecidableEq κ] {m : Finmap fun _ : ℕ => List ℕ} {ids : List ℕ}
    (hnodup : ids.Nodup) (hids : ∀ id, id ∈ ids ↔ id ∈ m.keys) {f : List ℕ → List κ} (hnil : f [] = [])
    {keysOf : ℕ → List κ} (hkeysOf : ∀ id ∈ ids, keysOf id = f ((m.lookup id).getD []))
    (hkeys : ∀ id, (keysOf id).Nodup) :
    Inverse (ids.foldl (fun b id => add id (keysOf id) b) fun _ => none)
      fun id => f ((m.lookup id).getD []) := by
  have hassigned : (fun id => if id ∈ ids then keysOf id else []) =
      fun id => f ((m.lookup id).getD []) := by
    funext id
    split_ifs with hid
    · exact hkeysOf id hid
    · rw [hids] at hid
      rw [assigned_of_notMem hid, hnil]
  exact hassigned ▸ inverse_foldl keysOf hkeys hnodup

lemma mem_sortedIds : id ∈ s.sortedIds ↔ id ∈ s.embeddings.keys := upwards.mem _ _

lemma nodup_sortedIds : s.sortedIds.Nodup := upwards.nodup _

lemma lookup_collect_sortedIds {W : Type*} (f : List S → W) :
    (collect s.sortedIds fun id => (s.embeddings.lookup id).map f).lookup id =
      (s.embeddings.lookup id).map f :=
  lookup_collect_map upwards f

lemma keys_collect_sortedIds {W : Type*} (f : List S → W) :
    (collect s.sortedIds fun id => (s.embeddings.lookup id).map f).keys = s.embeddings.keys :=
  keys_eq_of_lookup fun id => by rw [lookup_collect_sortedIds, Option.isSome_map]

/-- What an embedding is assigned to. -/
lemma assigned_collect {W : Type*} (f : List S → List W) (hid : id ∈ s.embeddings.keys) :
    f ((s.embeddings.lookup id).getD []) = ((s.embeddings.lookup id).map f).getD [] := by
  obtain ⟨v, hv⟩ := Option.isSome_iff_exists.mp (mem_keys_iff.mp hid)
  rw [hv]
  rfl

/-- The cells are those that the vectors are assigned. -/
lemma coarse_rebuildCoarse (s : SemanticIndex S C) : Inverse (s.rebuildCoarse vm).coarseMembers
    fun id => (((s.rebuildCoarse vm).memCoarse.lookup id).getD []) := by
  refine inverse_rebuilt (f := fun keys => keys) nodup_sortedIds (fun id => ?_) rfl (fun id hid => ?_)
    fun id => nodup_assignCoarse vm _
  · rw [mem_sortedIds, SemanticIndex.rebuildCoarse, keys_collect_sortedIds]
  · rw [SemanticIndex.rebuildCoarse, lookup_collect_sortedIds,
      assigned_collect vm.assignCoarse (mem_sortedIds.mp hid)]

/-- So are the buckets. -/
lemma lsh_rebuildLsh (s : SemanticIndex S C) : Inverse (s.rebuildLsh vm).lshBuckets
    fun id => lshKeys (((s.rebuildLsh vm).memLsh.lookup id).getD []) := by
  refine inverse_rebuilt nodup_sortedIds (fun id => ?_) rfl (fun id hid => ?_) fun id => nodup_lshKeys _
  · rw [mem_sortedIds, SemanticIndex.rebuildLsh, keys_collect_sortedIds]
  · rw [SemanticIndex.rebuildLsh, lookup_collect_sortedIds,
      assigned_collect vm.assignLsh (mem_sortedIds.mp hid)]

lemma lsh_rebuildLshBucketsFromMem (order : Orders) (s : SemanticIndex S C) :
    Inverse (s.rebuildLshBucketsFromMem order).lshBuckets
      fun id => lshKeys ((s.memLsh.lookup id).getD []) :=
  inverse_rebuilt (order.signatures.nodup _) (order.signatures.mem _) rfl (fun _ _ => rfl)
    fun _ => nodup_lshKeys _

/-! ## Normalizing -/

/-- As `Mirrors`, without the buckets of signatures. -/
structure MirrorsButLsh (s : SemanticIndex S C) : Prop where
  positions : s.binaryVec.Exact
  codes : ∀ id, id ∈ s.binaryVec.vec.map (·.1) ↔ id ∈ s.binaryCodes.keys
  coarse : Inverse s.coarseMembers fun id => (s.memCoarse.lookup id).getD []
  realms : ∀ realm, (s.perRealmCounts realm).getD 0 = (s.members realm).card

variable (vm order) in
lemma shape_normalizeVectors (h : Shape s) : Shape (s.normalizeVectors vm order) := by
  have hkeys : (s.normalizeVectors vm order).embeddings.keys = s.embeddings.keys :=
    keys_collect_map order.embeddings _
  exact ⟨h.coarse.trans hkeys.symm, h.lsh.trans hkeys.symm, hkeys ▸ h.codes, h.signed⟩

variable (vm order) in
lemma shape_assignSignatures (h : Shape s) : Shape (s.assignSignatures vm order) := by
  refine ⟨h.coarse, keys_collect_map order.embeddings _, h.codes, fun id signatures hid => ?_⟩
  rw [SemanticIndex.assignSignatures, lookup_collect_map] at hid
  obtain ⟨v, -, rfl⟩ := Option.map_eq_some_iff.mp hid
  exact length_assignLsh v

variable (vm order) in
/-- The codes have another number than the embeddings, and so has their vector; or both stay. -/
lemma refreshCodes_eq (h : MirrorsButLsh s) : s.refreshCodes vm order = s ∨
    s.refreshCodes vm order = s.rebinarizeAll vm order := by
  have hlength : s.binaryVec.vec.length = s.binaryCodes.keys.card := by
    have hset : (s.binaryVec.vec.map (·.1)).toFinset = s.binaryCodes.keys := by
      ext id
      rw [List.mem_toFinset, h.codes]
    rw [← hset, List.toFinset_card_of_nodup h.positions.nodup, List.length_map]
  unfold SemanticIndex.refreshCodes
  dsimp only
  by_cases hcount : s.binaryCodes.keys.card = s.totalEmbeddingCount
  · rw [if_neg (not_not.mpr hcount), if_neg (not_not.mpr hlength)]
    exact Or.inl rfl
  · rw [if_pos hcount, SemanticIndex.keys_binarizeAll, if_pos]
    · exact Or.inr rfl
    · exact fun heq => hcount (hlength.symm.trans heq)

variable (vm order) in
lemma MirrorsButLsh.refreshCodes (h : MirrorsButLsh s) : MirrorsButLsh (s.refreshCodes vm order) := by
  rcases refreshCodes_eq vm order h with heq | heq
  · rw [heq]
    exact h
  · rw [heq]
    obtain ⟨hpositions, hcodes⟩ := SemanticIndex.placed_placeCodes order (s.binarizeAll vm order)
    exact ⟨hpositions, hcodes, h.coarse, h.realms⟩

lemma shape_binarizeAll (h : Shape s) : Shape (s.binarizeAll vm order) :=
  ⟨h.coarse, h.lsh, SemanticIndex.keys_binarizeAll.subset, h.signed⟩

lemma shape_placeCodes (h : Shape s) : Shape (s.placeCodes order) :=
  ⟨h.coarse, h.lsh, h.codes, h.signed⟩

variable (vm order) in
lemma shape_refreshCodes (h : Shape s) : Shape (s.refreshCodes vm order) := by
  unfold SemanticIndex.refreshCodes
  dsimp only
  split_ifs
  · exact shape_placeCodes (shape_binarizeAll h)
  · exact shape_binarizeAll h
  · exact shape_placeCodes h
  · exact h

variable (vm order) in
/-- The coarse index and the signatures have the right number, so the buckets are filled. -/
lemma refreshAnn_eq (h : Shape s) : s.refreshAnn vm order = s.rebuildLshBucketsFromMem order := by
  unfold SemanticIndex.refreshAnn SemanticIndex.totalEmbeddingCount
  rw [h.coarse, h.lsh, if_neg (not_not.mpr rfl), if_neg (not_not.mpr rfl)]

variable (vm order) in
lemma shape_normalizeAll (h : Shape s) : Shape (s.normalizeAll vm order) := by
  have hfresh := shape_refreshCodes vm order
    (shape_assignSignatures vm order (shape_normalizeVectors vm order h))
  unfold SemanticIndex.normalizeAll
  dsimp only
  rw [refreshAnn_eq vm order hfresh]
  exact ⟨hfresh.coarse, hfresh.lsh, hfresh.codes, hfresh.signed⟩

variable (vm order) in
/-- Vectors that are made unit vectors are assigned anew. -/
lemma Mirrors.normalizeAll (h : Mirrors s) (hshape : Shape s) : Mirrors (s.normalizeAll vm order) := by
  have hfresh := shape_refreshCodes vm order
    (shape_assignSignatures vm order (shape_normalizeVectors vm order hshape))
  have hbut : MirrorsButLsh ((s.normalizeVectors vm order).assignSignatures vm order) :=
    ⟨h.positions, h.codes, h.coarse, h.realms⟩
  have hrefreshed := hbut.refreshCodes vm order
  unfold SemanticIndex.normalizeAll
  dsimp only
  rw [refreshAnn_eq vm order hfresh]
  exact ⟨hrefreshed.positions, hrefreshed.codes, hrefreshed.coarse,
    lsh_rebuildLshBucketsFromMem order _, hrefreshed.realms⟩

variable (vm order) in
/-- All structures are built again. -/
lemma Mirrors.forceReindex (h : Mirrors s) : Mirrors (s.forceReindex vm order) := by
  unfold SemanticIndex.forceReindex
  dsimp only
  refine ⟨?_, ?_, coarse_rebuildCoarse _, lsh_rebuildLsh _, h.realms⟩
  · exact (SemanticIndex.placed_placeCodes order _).1
  · exact (SemanticIndex.placed_placeCodes order _).2

variable (vm order) in
lemma shape_forceReindex (s : SemanticIndex S C) : Shape (s.forceReindex vm order) := by
  unfold SemanticIndex.forceReindex
  dsimp only
  refine ⟨keys_collect_sortedIds _, keys_collect_sortedIds _, ?_, fun id signatures hid => ?_⟩
  · exact SemanticIndex.keys_binarizeAll.subset
  · rw [SemanticIndex.rebuildAnn, SemanticIndex.rebuildLsh, lookup_collect_sortedIds] at hid
    obtain ⟨v, -, rfl⟩ := Option.map_eq_some_iff.mp hid
    exact length_assignLsh v

/-! ## Purging -/

variable (vm order) in
lemma shape_purgeWrongDim (h : Shape s) : Shape (s.purgeWrongDim vm order) := by
  have hshape : Shape { s with
      embeddings := eraseAll s.embeddings (s.wrongDim vm order)
      binaryCodes := eraseAll s.binaryCodes (s.wrongDim vm order)
      memCoarse := eraseAll s.memCoarse (s.wrongDim vm order)
      memLsh := eraseAll s.memLsh (s.wrongDim vm order) } := by
    refine ⟨?_, ?_, ?_, fun id signatures hid => ?_⟩
    · rw [keys_eraseAll, keys_eraseAll, h.coarse]
    · rw [keys_eraseAll, keys_eraseAll, h.lsh]
    · rw [keys_eraseAll, keys_eraseAll]
      exact Finset.filter_subset_filter _ h.codes
    · rw [lookup_eraseAll] at hid
      split_ifs at hid
      exact h.signed id signatures hid
  unfold SemanticIndex.purgeWrongDim
  dsimp only
  split_ifs
  · exact hshape
  · exact ⟨hshape.coarse, hshape.lsh, hshape.codes, hshape.signed⟩

/-- The vectors of another length than the model has. -/
lemma mem_wrongDim : id ∈ s.wrongDim vm order ↔
    ∃ v, s.embeddings.lookup id = some v ∧ v.length ≠ vm.dim := by
  rw [SemanticIndex.wrongDim, List.mem_filter, order.embeddings.mem, mem_keys_iff,
    Option.isSome_iff_exists, decide_eq_true_eq]
  constructor
  · rintro ⟨⟨v, hv⟩, hlength⟩
    rw [hv] at hlength
    exact ⟨v, hv, hlength⟩
  · rintro ⟨v, hv, hlength⟩
    rw [hv]
    exact ⟨⟨v, rfl⟩, hlength⟩

/-- Either no embedding has another length, or all have. -/
def Uniform (vm : VectorMath S F C) (s : SemanticIndex S C) : Prop :=
  (∀ id v, s.embeddings.lookup id = some v → v.length = vm.dim) ∨
    ∀ id v, s.embeddings.lookup id = some v → v.length ≠ vm.dim

/-- A purge without anything to purge. -/
lemma purgeWrongDim_of_nil (hnil : s.wrongDim vm order = []) : s.purgeWrongDim vm order = s := by
  unfold SemanticIndex.purgeWrongDim
  dsimp only
  rw [hnil, if_pos rfl]
  rfl

lemma lshKeys_ne_nil {signatures : List ℕ} (h : signatures.length = 4) : lshKeys signatures ≠ [] := by
  intro hnil
  have hlength := congrArg List.length hnil
  rw [lshKeys, List.length_map, List.length_zipIdx, h] at hlength
  exact absurd hlength (by simp)

variable (vm order) in
/-- An embedding that stays behind a purge keeps signatures without buckets. -/
lemma not_mirrors_purgeWrongDim (hshape : Shape s) {bad good : ℕ} {vb vg : List S}
    (hbad : s.embeddings.lookup bad = some vb) (hvb : vb.length ≠ vm.dim)
    (hgood : s.embeddings.lookup good = some vg) (hvg : vg.length = vm.dim) :
    ¬Mirrors (s.purgeWrongDim vm order) := by
  intro h
  have hne : s.wrongDim vm order ≠ [] := List.ne_nil_of_mem (mem_wrongDim.mpr ⟨vb, hbad, hvb⟩)
  have hout : good ∉ s.wrongDim vm order := by
    rw [mem_wrongDim]
    rintro ⟨v, hv, hlength⟩
    exact hlength (Option.some.inj (hgood.symm.trans hv) ▸ hvg)
  have hkey : good ∈ s.memLsh.keys := by
    rw [hshape.lsh, mem_keys_iff, hgood]
    rfl
  obtain ⟨signatures, hsignatures⟩ := Option.isSome_iff_exists.mp (mem_keys_iff.mp hkey)
  obtain ⟨k, hk⟩ := List.exists_mem_of_ne_nil _ (lshKeys_ne_nil (hshape.signed good _ hsignatures))
  have hmem := h.lsh.mem k good
  unfold SemanticIndex.purgeWrongDim at hmem
  dsimp only at hmem
  rw [if_neg hne, lookup_eraseAll, if_neg hout, hsignatures] at hmem
  exact absurd (hmem.mpr hk) List.not_mem_nil

variable (vm order) in
/-- A purge of everything leaves nothing that is derived. -/
lemma Mirrors.purgeWrongDim_all (h : Mirrors s) (hshape : Shape s)
    (hall : ∀ id v, s.embeddings.lookup id = some v → v.length ≠ vm.dim) :
    Mirrors (s.purgeWrongDim vm order) := by
  by_cases hnil : s.wrongDim vm order = []
  · rw [purgeWrongDim_of_nil hnil]
    exact h
  have hwrong : ∀ id ∈ s.embeddings.keys, id ∈ s.wrongDim vm order := by
    intro id hid
    obtain ⟨v, hv⟩ := Option.isSome_iff_exists.mp (mem_keys_iff.mp hid)
    exact mem_wrongDim.mpr ⟨v, hv, hall id v hv⟩
  unfold SemanticIndex.purgeWrongDim
  dsimp only
  rw [if_neg hnil]
  refine ⟨Placed.exact_empty, fun id => ?_, ?_, ?_, h.realms⟩
  · rw [mem_keys_iff, lookup_eraseAll_of_subset fun x hx => hwrong x (hshape.codes hx)]
    simp [Placed.empty]
  · simp only [lookup_eraseAll_of_subset fun x hx => hwrong x (hshape.coarse ▸ hx)]
    exact inverse_empty
  · simp only [lookup_eraseAll_of_subset fun x hx => hwrong x (hshape.lsh ▸ hx)]
    exact inverse_empty

variable (vm order) in
/-- A purge leaves the index right iff it purges nothing or everything. -/
lemma mirrors_purgeWrongDim_iff (h : Mirrors s) (hshape : Shape s) :
    Mirrors (s.purgeWrongDim vm order) ↔ Uniform vm s := by
  constructor
  · intro hpurged
    by_contra hmixed
    rw [Uniform, not_or] at hmixed
    push Not at hmixed
    obtain ⟨⟨bad, vb, hbad, hvb⟩, good, vg, hgood, hvg⟩ := hmixed
    exact not_mirrors_purgeWrongDim vm order hshape hbad hvb hgood hvg hpurged
  · rintro (hright | hwrong)
    · have hnil : s.wrongDim vm order = [] := by
        refine List.eq_nil_iff_forall_not_mem.mpr fun id hid => ?_
        obtain ⟨v, hv, hlength⟩ := mem_wrongDim.mp hid
        exact hlength (hright id v hv)
      rw [purgeWrongDim_of_nil hnil]
      exact h
    · exact h.purgeWrongDim_all vm order hshape hwrong

/-! ## Runs -/

lemma shape_new (inhibitHnsw : Bool) : Shape (SemanticIndex.new inhibitHnsw : SemanticIndex S C) :=
  ⟨rfl, rfl, Finset.empty_subset _, fun _ _ h => absurd h (by simp [SemanticIndex.new])⟩

lemma mirrors_new (inhibitHnsw : Bool) : Mirrors (SemanticIndex.new inhibitHnsw : SemanticIndex S C) := by
  refine ⟨Placed.exact_empty, fun id => ?_, ?_, ?_, fun realm => rfl⟩
  · simp [SemanticIndex.new, Placed.empty]
  · exact inverse_empty
  · exact inverse_empty

lemma shape_live (h : Shape s) (step : IndexStep S × Orders) : Shape (s.live vm step).1 := by
  obtain ⟨step, order⟩ := step
  cases step with
  | upsert id embedding realm => exact (h.upsertMeta id embedding realm).maybeRefreshCentroid
  | upsertDeferred id embedding realm => exact (h.upsertMeta id embedding realm).maybeRefreshCentroid
  | remove id => exact h.remove vm order id
  | purgeWrongDim => exact shape_purgeWrongDim vm order h
  | normalizeAll => exact shape_normalizeAll vm order h
  | forceReindex => exact shape_forceReindex vm order s

/-- A purge is only made of embeddings that are all right or all wrong. -/
def UniformPurge (vm : VectorMath S F C) (s : SemanticIndex S C) (step : IndexStep S × Orders) : Prop :=
  match step.1 with
  | .purgeWrongDim => Uniform vm s
  | _ => True

/-- Only a purge that is not uniform does harm. -/
lemma mirrors_live_iff (hshape : Shape s) (h : Mirrors s) (step : IndexStep S × Orders) :
    Mirrors (s.live vm step).1 ↔ UniformPurge vm s step := by
  obtain ⟨step, order⟩ := step
  cases step with
  | upsert id embedding realm =>
    exact iff_of_true (h.upsertMeta hshape id embedding realm).maybeRefreshCentroid trivial
  | upsertDeferred id embedding realm =>
    exact iff_of_true (h.upsertMeta hshape id embedding realm).maybeRefreshCentroid trivial
  | remove id => exact iff_of_true (h.remove vm order id) trivial
  | purgeWrongDim => exact mirrors_purgeWrongDim_iff vm order h hshape
  | normalizeAll => exact iff_of_true (h.normalizeAll vm order hshape) trivial
  | forceReindex => exact iff_of_true (h.forceReindex vm order) trivial

end Runs

/-- What is derived mirrors the embeddings behind every step of a run iff every purge finds only
embeddings of the right length, or only ones of another. -/
theorem mirrors_iff {S F C : Type*} (vm : VectorMath S F C) (inhibitHnsw : Bool)
    (steps : List (IndexStep S × Orders)) :
    Replayed.All (SemanticIndex.live vm) (fun s step => Mirrors (s.live vm step).1)
        (SemanticIndex.new inhibitHnsw) steps ↔
      Replayed.All (SemanticIndex.live vm) (UniformPurge vm) (SemanticIndex.new inhibitHnsw) steps :=
  Replayed.all_iff Shape Mirrors (fun _ step h => shape_live h step)
    (fun _ step hshape h => mirrors_live_iff hshape h step) (shape_new inhibitHnsw)
    (mirrors_new inhibitHnsw)

section Purged

/-- Numbers in the place of floats; embeddings have one of them. -/
def oneDim : VectorMath ℤ ℤ Unit where
  dim := 1
  normalize := id
  length_normalize := fun _ => rfl
  dot := fun _ _ => 0
  le := fun a b => a ≤ b
  nonneg := fun a => 0 ≤ a
  binarizeCentered := fun _ _ => ()
  mean := fun _ => []
  close := fun _ _ => true
  trigger := fun _ => 512
  coarseCentroids := List.replicate 256 [1]
  length_coarseCentroids := List.length_replicate
  lshPlanes := List.replicate 4 [[1]]
  length_lshPlanes := List.length_replicate

def upwardOrders : Orders := ⟨upwards, upwards, upwards⟩

/-- The embedding of a memory is purged, and another one leaves the vector of codes with it. -/
theorem purge_loses_codes :
    ¬Mirrors (Replayed.run (SemanticIndex.live oneDim) (SemanticIndex.new false)
      [(.upsert 1 [1] none, upwardOrders), (.upsert 2 [] none, upwardOrders),
        (.purgeWrongDim, upwardOrders)]).1 := by
  intro h
  have hcodes := h.codes 1
  exact absurd (hcodes.mpr (by decide +kernel)) (by decide +kernel)

end Purged

end ChittaField.Vectors
