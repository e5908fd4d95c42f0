import ChittaField.Lib.HashMaps
import ChittaField.Memory.Indexes
import ChittaField.Recall.Hits
import ChittaField.Store.KeyText

/-!
# Bridges

The best dense hit may share a rare artifact with memories that the dense list has buried.  Such
memories are put into the top of the list, and hits are evicted for them.  `bridge_exact` says when no
hit is evicted for nothing.
-/

namespace ChittaField.Bridge

open HashMaps

/-! ## Candidates -/

/-- The arithmetic of the weights of shared artifacts. -/
structure Weights (W : Type*) where
  zero : W
  add : W → W → W
  /-- The total order. -/
  le : W → W → Bool
  /-- The logarithm of a ratio. -/
  lnRatio : ℕ → ℕ → W

section Candidates

variable {F : Type} {W : Type*} (w : Weights W)

/-- Add the weight of an artifact to a memory that mentions it. -/
def addEntry (weight : W) (exclude : MemoryId) (scores : Finmap fun _ : MemoryId => W)
    (e : ArtifactEntry F) : Finmap fun _ : MemoryId => W :=
  if e.memoryId = exclude then scores
  else scores.insert e.memoryId (w.add ((scores.lookup e.memoryId).getD w.zero) weight)

/-- Add the weight of a path to all memories that mention it, if they are few. -/
def addPath (byPath : String → List (ArtifactEntry F)) (nTotal tau : ℕ) (exclude : MemoryId)
    (scores : Finmap fun _ : MemoryId => W) (path : String) : Finmap fun _ : MemoryId => W :=
  let dfreq := (byPath path).length
  if dfreq = 0 ∨ tau < dfreq then scores
  else (byPath path).foldl (addEntry w (w.lnRatio nTotal dfreq) exclude) scores

/-- The memories that share artifacts with a memory, the heaviest first. -/
def bridgeCandidates (order : KeyOrder MemoryId) (byPath : String → List (ArtifactEntry F))
    (anchorPaths : List String) (nTotal tau : ℕ) (exclude : MemoryId) (limit : ℕ) :
    List (MemoryId × W) :=
  let scores := anchorPaths.foldl (addPath w byPath nTotal tau exclude) ∅
  ((entries order scores).insertionSort fun a b =>
    (!w.le a.2 b.2 || (w.le b.2 a.2 && a.1 ≤ b.1)) = true).take limit

end Candidates

/-! ## Hits -/

/-- Where hits are built from. -/
structure Lane (F : Type) (D : Type*) where
  states : MemoryId → Option (MemoryState F)
  payloads : MemoryId → Option (MemoryPayload F)
  realm : Option String
  /-- The scoring, for a memory that no cosine has surfaced. -/
  score : MemoryState F → MemoryPayload F → Option D

variable {F : Type} {D : Type*}

/-- A hit of a memory that is there, has a text, and is not of a soul that is not asked for. -/
def Lane.buildHit (l : Lane F D) (id : MemoryId) : Option (RecallHit D) :=
  (l.states id).bind fun state =>
    if state.deleted then none
    else (l.payloads id).bind fun payload =>
      let content := decodeText payload.content
      if trim content.toList = [] then none
      else if "soul:".toList <+: payload.realm.toList ∧
          ∀ r ∈ l.realm, ¬"soul:".toList <+: r.toList then none
      else (l.score state payload).map fun scored =>
        ⟨id, payload.authoredAtMs, payload.kind, payload.realm, content, scored⟩

/-! ## Fusion -/

section Fusion

variable (build : MemoryId → Option (RecallHit D)) (k reserve : ℕ)

/-- The hits of the first candidates that the dense top does not have, up to the reserve. -/
def newBridge (topk : List MemoryId) : List MemoryId → List (RecallHit D) → List (RecallHit D)
  | [], new => new
  | m :: cands, new =>
    if reserve ≤ new.length then new
    else if m ∈ topk then newBridge topk cands new
    else
      match build m with
      | some h => newBridge topk cands (new ++ [h])
      | none => newBridge topk cands new

/-- Evict from the tail what is no candidate, until there is enough room. -/
def evictWeak (cands : List MemoryId) (need : ℕ) :
    ℕ → List (RecallHit D) → ℕ → List (RecallHit D) × ℕ
  | 0, kept, room => (kept, room)
  | i + 1, kept, room =>
    if room < need then
      if ∃ h ∈ kept[i]?, h.memoryId ∉ cands then evictWeak cands need i (kept.eraseIdx i) (room + 1)
      else evictWeak cands need i kept room
    else (kept, room)

/-- Drop the tail down to a floor, until there is enough room; there are as many turns as hits. -/
def dropTail (need floor : ℕ) : ℕ → List (RecallHit D) → ℕ → List (RecallHit D) × ℕ
  | 0, kept, room => (kept, room)
  | turns + 1, kept, room =>
    if room < need ∧ floor < kept.length then dropTail need floor turns kept.dropLast (room + 1)
    else (kept, room)

/-- Put new bridges into the dense top, and evict hits for them. -/
def fuse (hits : List (RecallHit D)) (cands : List MemoryId) : List (RecallHit D) :=
  let topk := (hits.take k).map (·.memoryId)
  let new := newBridge build reserve topk cands []
  if new = [] then hits
  else
    let weak := evictWeak cands new.length (hits.take k).length (hits.take k) 0
    let kept := dropTail new.length (k - reserve) weak.1.length weak.1 weak.2
    kept.1 ++ new.take kept.2

end Fusion

/-- The candidates for a dense list: what shares artifacts with the best hit. -/
def laneCandidates {W : Type*} (w : Weights W) (order : KeyOrder MemoryId) (idx : ArtifactIndex F)
    (nTotal tau k reserve : ℕ) (hits : List (RecallHit D)) : List MemoryId :=
  match hits with
  | [] => []
  | anchor :: _ =>
    let paths := (idx.byMemory anchor.memoryId).getD []
    (bridgeCandidates w order idx.byPath paths nTotal tau anchor.memoryId (min reserve k * 4)).map (·.1)

/-- The lane of bridges: what it makes of a dense list. -/
def bridgeLane {W : Type*} (w : Weights W) (order : KeyOrder MemoryId) (idx : ArtifactIndex F)
    (l : Lane F D) (nTotal tau k reserve : ℕ) (hits : List (RecallHit D)) : List (RecallHit D) :=
  let cands := laneCandidates w order idx nTotal tau k reserve hits
  (if hits = [] ∨ k = 0 ∨ cands = [] then hits
  else fuse l.buildHit k (min reserve k) hits cands).take k

/-! ## Evicting -/

/-- No candidate. -/
def Weak (cands : List MemoryId) (h : RecallHit D) : Bool := decide (h.memoryId ∉ cands)

variable {cands : List MemoryId} {need room room' floor : ℕ} {front front' kept hits : List (RecallHit D)}

/-- What the eviction from a list leaves, and the room behind it: only hits that are no candidates go,
the last ones first, until there is enough room or none of them is left. -/
structure Evicted (cands : List MemoryId) (need room : ℕ) (front front' : List (RecallHit D))
    (room' : ℕ) : Prop where
  sub : front'.Sublist front
  length : front'.length + room' = front.length + room
  weak : front'.countP (Weak cands) + room' = front.countP (Weak cands) + room
  enough : room' ≤ need
  all : room' = need ∨ front'.countP (Weak cands) = 0
  head : need ≤ room + front.tail.countP (Weak cands) → front'.head? = front.head?

lemma evictWeak_spec (hroom : room ≤ need) (tail : List (RecallHit D)) :
    ∃ front' room', evictWeak cands need front.length (front ++ tail) room = (front' ++ tail, room') ∧
      Evicted cands need room front front' room' := by
  induction front using List.reverseRecOn generalizing room tail with
  | nil => exact ⟨[], room, rfl, .refl _, rfl, rfl, hroom, Or.inr rfl, fun _ => rfl⟩
  | append_singleton front x ih =>
    rw [List.length_append, List.length_singleton, evictWeak]
    have hget : ((front ++ [x]) ++ tail)[front.length]? = some x := by
      rw [List.append_assoc, List.getElem?_append_right le_rfl, Nat.sub_self]
      rfl
    have hcount : (front ++ [x]).countP (Weak cands) =
        front.countP (Weak cands) + if Weak cands x then 1 else 0 := by
      rw [List.countP_append, List.countP_singleton]
    split_ifs with hneed hweak
    · -- the last hit goes
      obtain ⟨y, hy, hy'⟩ := hweak
      rw [hget] at hy
      obtain rfl := Option.some.inj hy
      have herase : ((front ++ [x]) ++ tail).eraseIdx front.length = front ++ tail := by
        rw [List.append_assoc, List.eraseIdx_append_of_length_le le_rfl, Nat.sub_self]
        rfl
      have hx : Weak cands x = true := decide_eq_true hy'
      obtain ⟨front', room', heq, h⟩ := ih (Nat.succ_le_of_lt hneed) tail
      refine ⟨front', room', herase ▸ heq, h.sub.trans (List.sublist_append_left ..), ?_, ?_, h.enough,
        h.all, fun hle => ?_⟩
      · rw [h.length, List.length_append, List.length_singleton]
        omega
      · rw [h.weak, hcount, if_pos hx]
        omega
      · rcases front with _ | ⟨z, front⟩
        · -- the head alone would not go
          simp at hle
          omega
        · refine (h.head ?_).trans (by simp)
          rw [List.cons_append, List.tail_cons, List.countP_append, List.countP_singleton,
            if_pos hx] at hle
          rw [List.tail_cons]
          omega
    · -- a candidate stays
      have hcand : Weak cands x = false := by
        refine decide_eq_false fun hx => hweak ⟨x, ?_, hx⟩
        rw [hget]
        rfl
      obtain ⟨front', room', heq, h⟩ := ih hroom (x :: tail)
      refine ⟨front' ++ [x], room', ?_, h.sub.append_right [x], ?_, ?_, h.enough, ?_, fun hle => ?_⟩
      · rw [List.append_assoc, List.singleton_append, heq, List.append_assoc]
        rfl
      · rw [List.length_append, List.length_append, List.length_singleton]
        have := h.length
        omega
      · have hweak' := h.weak
        rw [hcount, List.countP_append, List.countP_singleton, hcand]
        simpa using hweak'
      · rw [List.countP_append, List.countP_singleton, hcand]
        simpa using h.all
      · rcases front with _ | ⟨z, front⟩
        · rw [List.sublist_nil.mp h.sub]
        · have hhead := h.head (by
            rw [List.cons_append, List.tail_cons, List.countP_append, List.countP_singleton, hcand] at hle
            simpa using hle)
          rw [List.head?_append, hhead]
          rfl
    · exact ⟨front ++ [x], room, rfl, .refl _, rfl, rfl, hroom, Or.inl (by omega), fun _ => rfl⟩

lemma dropTail_spec (turns : ℕ) (kept : List (RecallHit D)) (hroom : room ≤ need) :
    (dropTail need floor turns kept room).1.Sublist kept ∧
      (dropTail need floor turns kept room).1.length + (dropTail need floor turns kept room).2 =
        kept.length + room ∧
      (dropTail need floor turns kept room).2 ≤ need ∧ room ≤ (dropTail need floor turns kept room).2 := by
  induction turns generalizing kept room with
  | zero => exact ⟨.refl _, rfl, hroom, le_rfl⟩
  | succ turns ih =>
    rw [dropTail]
    split_ifs with hdrop
    · have hroom' : room + 1 ≤ need := hdrop.1
      obtain ⟨hsub, hlength, hle, hge⟩ := ih kept.dropLast hroom'
      refine ⟨hsub.trans (List.dropLast_sublist _), ?_, hle, by omega⟩
      rw [hlength, List.length_dropLast]
      omega
    · exact ⟨.refl _, rfl, hroom, le_rfl⟩

/-- With enough room nothing of the tail is dropped. -/
lemma dropTail_of_le (turns : ℕ) (h : need ≤ room) : dropTail need floor turns kept room = (kept, room) := by
  cases turns with
  | zero => rfl
  | succ turns => rw [dropTail, if_neg fun hdrop => absurd hdrop.1 (not_lt.mpr h)]

/-! ## New bridges -/

variable {build : MemoryId → Option (RecallHit D)} {k reserve : ℕ}

lemma newBridge_spec (topk cands : List MemoryId) {new : List (RecallHit D)} (h : new.length ≤ reserve) :
    newBridge build reserve topk cands new =
      (new ++ (cands.filter (· ∉ topk)).filterMap build).take reserve := by
  induction cands generalizing new with
  | nil =>
    rw [newBridge, List.filter_nil, List.filterMap_nil, List.append_nil, List.take_of_length_le h]
  | cons m cands ih =>
    rw [newBridge]
    split_ifs with hfull hmem
    · rw [List.take_append_of_le_length hfull, List.take_of_length_le h]
    · rw [ih h, List.filter_cons_of_neg (by simpa using hmem)]
    · rw [List.filter_cons_of_pos (by simpa using hmem)]
      cases hm : build m with
      | none => rw [List.filterMap_cons_none hm, ← ih h]
      | some x =>
        have hlength : (new ++ [x]).length ≤ reserve := by
          rw [List.length_append, List.length_singleton]
          omega
        rw [List.filterMap_cons_some hm, List.append_cons]
        exact ih hlength

/-- The number of hits that are put into the top: candidates that the dense top does not have and that
hits can be built of, up to the reserve. -/
def bridges (build : MemoryId → Option (RecallHit D)) (k reserve : ℕ) (hits : List (RecallHit D))
    (cands : List MemoryId) : ℕ :=
  min reserve ((cands.filter (· ∉ (hits.take k).map (·.memoryId))).filterMap build).length

/-- A fused list: it is short and without duplicates, begins with the best hit, has lost hits only if it
is full, has lost no candidates as long as it has other hits, and has few new hits. -/
structure Fused (k reserve : ℕ) (hits : List (RecallHit D)) (cands : List MemoryId)
    (result : List (RecallHit D)) : Prop where
  size : result.length ≤ k
  nodup : (result.map (·.memoryId)).Nodup
  top : ∀ h ∈ hits.head?, h ∈ result
  full : (∃ h ∈ hits.take k, h ∉ result) → result.length = k
  spared : (∃ h ∈ hits.take k, h.memoryId ∈ cands ∧ h ∉ result) →
    ∀ h ∈ hits.take k, h ∈ result → h.memoryId ∉ cands → h ∈ hits.head?
  injected : (result.filter fun h => h.memoryId ∉ (hits.take k).map (·.memoryId)).length ≤ reserve

/-- Nothing is put into the top, or the list is full and the hits behind the best one that are no
candidates are enough to make room. -/
def RoomFor (build : MemoryId → Option (RecallHit D)) (k reserve : ℕ) (hits : List (RecallHit D))
    (cands : List MemoryId) : Prop :=
  bridges build k reserve hits cands = 0 ∨
    k ≤ hits.length ∧
      bridges build k reserve hits cands ≤ (hits.take k).tail.countP (Weak cands)

lemma fused_self (hnodup : (hits.map (·.memoryId)).Nodup) (hk : 1 ≤ k) :
    Fused k reserve hits cands (hits.take k) := by
  refine ⟨List.length_take_le _ _, ?_, fun h hh => ?_, fun ⟨h, hh, hout⟩ => absurd hh hout,
    fun ⟨h, hh, _, hout⟩ => absurd hh hout, ?_⟩
  · rw [List.map_take]
    exact hnodup.sublist (List.take_sublist ..)
  · obtain ⟨k, rfl⟩ : ∃ n, k = n + 1 := ⟨k - 1, by omega⟩
    rcases hits with _ | ⟨x, hits⟩
    · cases hh
    · obtain rfl := Option.some.inj hh
      exact List.mem_cons_self
  · rw [List.filter_eq_nil_iff.mpr fun h hh => ?_]
    · exact Nat.zero_le _
    · rw [decide_eq_true_eq, not_not]
      exact List.mem_map_of_mem hh

/-- The fusion in one: with `new` bridges, what is kept of the dense top is followed by them. -/
lemma fuse_cases (build : MemoryId → Option (RecallHit D)) (k reserve : ℕ) (hits : List (RecallHit D))
    (cands : List MemoryId) :
    (bridges build k reserve hits cands = 0 ∧ fuse build k reserve hits cands = hits) ∨
      ∃ (new kept : List (RecallHit D)) (room : ℕ),
        new.length = bridges build k reserve hits cands ∧ 0 < new.length ∧
        (∀ h ∈ new, ∃ m ∈ cands, m ∉ (hits.take k).map (·.memoryId) ∧ build m = some h) ∧
        new.Sublist ((cands.filter (· ∉ (hits.take k).map (·.memoryId))).filterMap build) ∧
        Evicted cands new.length 0 (hits.take k) kept room ∧
        fuse build k reserve hits cands =
          (dropTail new.length (k - reserve) kept.length kept room).1 ++
            new.take (dropTail new.length (k - reserve) kept.length kept room).2 := by
  have hnew : newBridge build reserve ((hits.take k).map (·.memoryId)) cands [] = _ :=
    newBridge_spec ((hits.take k).map (·.memoryId)) cands (Nat.zero_le _)
  rw [List.nil_append] at hnew
  unfold fuse
  dsimp only
  rw [hnew]
  set new := ((cands.filter (· ∉ (hits.take k).map (·.memoryId))).filterMap build).take reserve
  have hlength : new.length = bridges build k reserve hits cands := List.length_take
  split_ifs with hnil
  · refine Or.inl ⟨?_, rfl⟩
    rw [← hlength, hnil]
    rfl
  · obtain ⟨kept, room, heq, hevicted⟩ : ∃ front' room',
        evictWeak cands new.length (hits.take k).length (hits.take k ++ []) 0 =
          (front' ++ [], room') ∧ Evicted cands new.length 0 (hits.take k) front' room' :=
      evictWeak_spec (Nat.zero_le new.length) []
    rw [List.append_nil, List.append_nil] at heq
    refine Or.inr ⟨new, kept, room, hlength, List.length_pos_iff.mpr hnil, fun h hh => ?_,
      List.take_sublist .., hevicted, by rw [heq]⟩
    obtain ⟨m, hm, hbuild⟩ := List.mem_filterMap.mp (List.mem_of_mem_take hh)
    obtain ⟨hmem, hout⟩ := List.mem_filter.mp hm
    exact ⟨m, hmem, by simpa using hout, hbuild⟩

section Main

/-- What was evicted is no candidate: candidates stay. -/
lemma Evicted.mem_of_mem (h : Evicted cands need room front front' room') {x : RecallHit D}
    (hx : x ∈ front) (hcand : x.memoryId ∈ cands) : x ∈ front' := by
  -- as many candidates are left as there were
  have hsplit : ∀ l : List (RecallHit D), l.length = l.countP (Weak cands) +
      (l.filter fun x => !Weak cands x).length := by
    intro l
    rw [← List.countP_eq_length_filter, List.length_eq_countP_add_countP (Weak cands)]
    simp only [Bool.not_eq_true, Bool.decide_eq_false]
  have hsub : (front'.filter fun x => !Weak cands x).Sublist (front.filter fun x => !Weak cands x) :=
    h.sub.filter _
  have hlength := h.length
  have hweak := h.weak
  have heq := hsub.eq_of_length (by
    have h1 := hsplit front
    have h2 := hsplit front'
    omega)
  have hmem : x ∈ front.filter fun x => !Weak cands x := by
    refine List.mem_filter.mpr ⟨hx, ?_⟩
    rw [Weak, decide_eq_false fun hout => hout hcand]
    rfl
  rw [← heq] at hmem
  exact List.mem_of_mem_filter hmem

/-- Hits that are built have the ids that they are built of. -/
lemma sublist_map_filterMap (hbuild : ∀ m h, build m = some h → h.memoryId = m) (ms : List MemoryId) :
    ((ms.filterMap build).map (·.memoryId)).Sublist ms := by
  induction ms with
  | nil => exact .refl _
  | cons m ms ih =>
    rw [List.filterMap_cons]
    cases hm : build m with
    | none => exact ih.cons m
    | some h => exact hbuild m h hm ▸ ih.cons_cons _

/-- The fused list is as it should be iff there is room for the new bridges. -/
lemma fused_iff (hk : 1 ≤ k) (hnodup : (hits.map (·.memoryId)).Nodup) (hcands : cands.Nodup)
    (hbuild : ∀ m h, build m = some h → h.memoryId = m)
    (hhead : ∀ h ∈ hits.head?, h.memoryId ∉ cands) (hhits : hits ≠ []) :
    Fused k reserve hits cands ((fuse build k reserve hits cands).take k) ↔
      RoomFor build k reserve hits cands := by
  rcases fuse_cases build k reserve hits cands with ⟨hzero, hfuse⟩ |
    ⟨new, kept, room, hlength, hpos, hnew, hsubnew, hevicted, hfuse⟩
  · rw [hfuse]
    exact iff_of_true (fused_self hnodup hk) (Or.inl hzero)
  have htop : ((hits.take k).map (·.memoryId)).Nodup := by
    rw [List.map_take]
    exact hnodup.sublist (List.take_sublist ..)
  -- a new bridge is not of the dense top
  have hfresh : ∀ h ∈ new, h ∉ hits.take k := by
    intro h hh hmem
    obtain ⟨m, -, hout, hm⟩ := hnew h hh
    exact hout (hbuild m h hm ▸ List.mem_map_of_mem hmem)
  obtain ⟨x, hits', rfl⟩ := List.exists_cons_of_ne_nil hhits
  have hxweak : Weak cands x = true := decide_eq_true (hhead x rfl)
  obtain ⟨n, rfl⟩ : ∃ n, k = n + 1 := ⟨k - 1, by omega⟩
  have hcount : ((x :: hits').take (n + 1)).countP (Weak cands) =
      ((x :: hits').take (n + 1)).tail.countP (Weak cands) + 1 := by
    rw [List.take_succ_cons, List.countP_cons_of_pos hxweak, List.tail_cons]
  have hxtop : x ∈ (x :: hits').take (n + 1) := List.mem_cons_self
  obtain ⟨hdropsub, hdroplength, hdropenough, hdropge⟩ :
      (dropTail new.length (n + 1 - reserve) kept.length kept room).1.Sublist kept ∧ _ :=
    dropTail_spec kept.length kept hevicted.enough
  set dropped := dropTail new.length (n + 1 - reserve) kept.length kept room
  have hkept : ∀ h ∈ dropped.1, h ∈ kept := fun h hh => hdropsub.subset hh
  have hresult : (fuse build (n + 1) reserve (x :: hits') cands).length ≤
      ((x :: hits').take (n + 1)).length := by
    rw [hfuse, List.length_append, List.length_take]
    have := hevicted.length
    omega
  have htake : (fuse build (n + 1) reserve (x :: hits') cands).take (n + 1) =
      dropped.1 ++ new.take dropped.2 := by
    rw [List.take_of_length_le (hresult.trans (List.length_take_le ..)), hfuse]
  rw [htake]
  constructor
  · intro hfused
    refine Or.inr ?_
    rw [← hlength]
    by_contra hno
    by_cases henough : new.length ≤ ((x :: hits').take (n + 1)).tail.countP (Weak cands)
    · -- the list is short, and yet something is evicted
      have hshort : (x :: hits').length < n + 1 := not_le.mp fun hle => hno ⟨hle, henough⟩
      have hlt : kept.length < ((x :: hits').take (n + 1)).length := by
        have h1 := hevicted.length
        have h2 := hevicted.weak
        have h3 := hevicted.all
        omega
      obtain ⟨y, hy, hykept⟩ : ∃ y ∈ (x :: hits').take (n + 1), y ∉ kept := by
        by_contra hno
        have hall : (x :: hits').take (n + 1) ⊆ kept := fun y hy =>
          by_contra fun hout => hno ⟨y, hy, hout⟩
        have hle := (List.Nodup.of_map _ htop).subperm hall
        exact absurd hle.length_le (not_le.mpr hlt)
      have hout : y ∉ dropped.1 ++ new.take dropped.2 := by
        intro hmem
        rcases List.mem_append.mp hmem with hmem | hmem
        · exact hykept (hkept y hmem)
        · exact hfresh y (List.mem_of_mem_take hmem) hy
      have hfull := hfused.full ⟨y, hy, hout⟩
      have hle : (dropped.1 ++ new.take dropped.2).length ≤ ((x :: hits').take (n + 1)).length := by
        rw [← hfuse]
        exact hresult
      rw [hfull, List.length_take] at hle
      omega
    · -- all that are no candidates are evicted, the best hit too
      have hnone : kept.countP (Weak cands) = 0 := by
        have h1 := hevicted.weak
        have h2 := hevicted.all
        omega
      have hx := hfused.top x rfl
      rcases List.mem_append.mp hx with hmem | hmem
      · exact absurd hxweak (List.countP_eq_zero.mp hnone x (hkept x hmem))
      · exact hfresh x (List.mem_of_mem_take hmem) hxtop
  · rintro (hzero | ⟨hfull, henough⟩)
    · rw [hzero] at hlength
      omega
    rw [← hlength] at henough
    have hroom : room = new.length := by
      have h1 := hevicted.weak
      have h2 := hevicted.all
      omega
    have hdrop : dropped = (kept, room) := dropTail_of_le _ hroom.ge
    rw [hdrop]
    dsimp only
    rw [hroom, List.take_length]
    have hsize : (kept ++ new).length = n + 1 := by
      rw [List.length_append]
      have h1 := hevicted.length
      rw [List.length_take, min_eq_left hfull] at h1
      omega
    refine ⟨hsize.le, ?_, fun h hh => ?_, fun _ => hsize, ?_, ?_⟩
    · rw [List.map_append]
      refine List.nodup_append.mpr ⟨htop.sublist (hevicted.sub.map _),
        (hcands.filter _).sublist ((hsubnew.map _).trans (sublist_map_filterMap hbuild _)),
        fun i hi j hj heq => ?_⟩
      subst heq
      obtain ⟨h, hh, hid⟩ := List.mem_map.mp hj
      obtain ⟨m, -, hout, hm⟩ := hnew h hh
      rw [← hbuild m h hm, hid] at hout
      exact hout ((hevicted.sub.map _).subset hi)
    · obtain rfl := Option.some.inj hh
      have hhead' := hevicted.head (by omega)
      rw [List.take_succ_cons, List.head?_cons] at hhead'
      exact List.mem_append_left _ (List.mem_of_mem_head? hhead')
    · rintro ⟨h, hh, hcand, hout⟩
      exact absurd (List.mem_append_left _ (hevicted.mem_of_mem hh hcand)) hout
    · rw [List.filter_append, List.filter_eq_nil_iff.mpr fun h hh => ?_, List.nil_append]
      · refine (List.length_filter_le _ _).trans (hlength.le.trans (min_le_left _ _))
      · rw [decide_eq_true_eq, not_not]
        exact List.mem_map_of_mem (hevicted.sub.subset hh)

end Main

/-! ## The lane -/

section Candidates

variable {W : Type*} {w : Weights W} {exclude : MemoryId}

/-- No candidate is the memory that is excluded. -/
lemma notMem_keys_foldl {byPath : String → List (ArtifactEntry F)} {nTotal tau : ℕ} (paths : List String)
    {scores : Finmap fun _ : MemoryId => W} (h : exclude ∉ scores.keys) :
    exclude ∉ (paths.foldl (addPath w byPath nTotal tau exclude) scores).keys := by
  have hentry : ∀ (weight : W) (es : List (ArtifactEntry F)) (scores : Finmap fun _ : MemoryId => W),
      exclude ∉ scores.keys → exclude ∉ (es.foldl (addEntry w weight exclude) scores).keys := by
    refine fun weight es _ h =>
      List.foldlRecOn (motive := fun s => exclude ∉ Finmap.keys s) es _ h fun scores h e _ => ?_
    unfold addEntry
    split_ifs with he
    · exact h
    · rw [keys_insert, Finset.mem_insert, not_or]
      exact ⟨Ne.symm he, h⟩
  refine List.foldlRecOn (motive := fun s => exclude ∉ Finmap.keys s) paths _ h fun scores h path _ => ?_
  unfold addPath
  dsimp only
  split_ifs
  · exact h
  · exact hentry _ _ _ h

/-- Candidates are distinct, and none of them is the memory that is excluded. -/
lemma bridgeCandidates_spec (w : Weights W) (order : KeyOrder MemoryId)
    (byPath : String → List (ArtifactEntry F)) (paths : List String) (nTotal tau limit : ℕ)
    (exclude : MemoryId) :
    ((bridgeCandidates w order byPath paths nTotal tau exclude limit).map (·.1)).Nodup ∧
      exclude ∉ (bridgeCandidates w order byPath paths nTotal tau exclude limit).map (·.1) := by
  unfold bridgeCandidates
  dsimp only
  have hout : exclude ∉ (paths.foldl (addPath w byPath nTotal tau exclude) ∅).keys :=
    notMem_keys_foldl paths (by simp)
  generalize paths.foldl (addPath w byPath nTotal tau exclude) ∅ = scores at hout
  constructor
  · refine List.Nodup.sublist ((List.take_sublist ..).map _) ?_
    exact ((List.perm_insertionSort _ _).map _).nodup_iff.mpr (nodup_entries order)
  · intro hmem
    obtain ⟨e, he, rfl⟩ := List.mem_map.mp hmem
    have hentry := (List.mem_insertionSort _).mp (List.mem_of_mem_take he)
    exact hout (mem_keys_iff.mpr (by rw [mem_entries.mp hentry]; rfl))

lemma laneCandidates_spec (w : Weights W) (order : KeyOrder MemoryId) (idx : ArtifactIndex F)
    (nTotal tau k reserve : ℕ) (hits : List (RecallHit D)) :
    (laneCandidates w order idx nTotal tau k reserve hits).Nodup ∧
      ∀ h ∈ hits.head?, h.memoryId ∉ laneCandidates w order idx nTotal tau k reserve hits := by
  unfold laneCandidates
  match hits with
  | [] => exact ⟨List.nodup_nil, fun h hh => by cases hh⟩
  | anchor :: hits =>
    obtain ⟨hnodup, hout⟩ := bridgeCandidates_spec w order idx.byPath
      ((idx.byMemory anchor.memoryId).getD []) nTotal tau (min reserve k * 4) anchor.memoryId
    refine ⟨hnodup, fun h hh => ?_⟩
    obtain rfl := Option.some.inj hh
    exact hout

end Candidates

lemma memoryId_of_buildHit {l : Lane F D} {id : MemoryId} {h : RecallHit D}
    (hbuild : l.buildHit id = some h) : h.memoryId = id := by
  unfold Lane.buildHit at hbuild
  obtain ⟨state, -, hbuild⟩ := Option.bind_eq_some_iff.mp hbuild
  split_ifs at hbuild
  obtain ⟨payload, -, hbuild⟩ := Option.bind_eq_some_iff.mp hbuild
  dsimp only at hbuild
  split_ifs at hbuild
  obtain ⟨scored, -, rfl⟩ := Option.map_eq_some_iff.mp hbuild
  rfl

/-- For every dense list with distinct ids, whatever its artifacts, its memories and the reserve: the
lane makes of it what it should iff there is room for the new bridges. -/
theorem bridge_exact {W : Type*} (w : Weights W) (order : KeyOrder MemoryId) (idx : ArtifactIndex F)
    (l : Lane F D) (nTotal tau k reserve : ℕ) (hits : List (RecallHit D)) (hk : 1 ≤ k)
    (hnodup : (hits.map (·.memoryId)).Nodup) :
    let cands := laneCandidates w order idx nTotal tau k reserve hits
    Fused k (min reserve k) hits cands (bridgeLane w order idx l nTotal tau k reserve hits) ↔
      RoomFor l.buildHit k (min reserve k) hits cands := by
  intro cands
  obtain ⟨hcands, hhead⟩ := laneCandidates_spec w order idx nTotal tau k reserve hits
  change Fused k (min reserve k) hits cands (List.take k (if hits = [] ∨ k = 0 ∨ cands = [] then hits
    else fuse l.buildHit k (min reserve k) hits cands)) ↔ _
  split_ifs with hidle
  · refine iff_of_true (fused_self hnodup hk) (Or.inl ?_)
    have hnil : cands = [] := by
      rcases hidle with rfl | hzero | hnil
      · rfl
      · omega
      · exact hnil
    rw [bridges, hnil]
    simp
  · rw [not_or] at hidle
    exact fused_iff hk hnodup hcands (fun m h => memoryId_of_buildHit) hhead hidle.1

/-- Weights that count shared artifacts. -/
def counting : Weights ℕ where
  zero := 0
  add := (· + ·)
  le a b := decide (a ≤ b)
  lnRatio _ _ := 1

/-- Two memories share an artifact. -/
def shared : ArtifactIndex ℚ :=
  (ArtifactIndex.new.associate 1 0 "/a/path" 1).associate 2 0 "/a/path" 1

/-- A lane in which every memory has the same text. -/
def texts : Lane ℚ Unit where
  states id := some (MemoryState.new id default 0)
  payloads id := some (.ofPut ⟨id, 1, [], 0, 0, "note", "r", [116], "", [], [], none, none, none, "", 0⟩)
  realm := none
  score _ _ := some ()

/-- The hit of a memory. -/
def hitOf (id : MemoryId) : RecallHit Unit := ⟨id, 0, "note", "r", "t", ()⟩

/-- Three dense hits have room for one bridge: the last of them goes. -/
theorem bridge_exact_three :
    (bridgeLane counting upwards shared texts 10 32 3 1 [hitOf 1, hitOf 3, hitOf 4]).map
        (·.memoryId) = [1, 3, 2] ∧
      Fused 3 1 [hitOf 1, hitOf 3, hitOf 4]
        (laneCandidates counting upwards shared 10 32 3 1 [hitOf 1, hitOf 3, hitOf 4])
        (bridgeLane counting upwards shared texts 10 32 3 1 [hitOf 1, hitOf 3, hitOf 4]) := by
  refine ⟨by decide +kernel, (bridge_exact counting upwards shared texts 10 32 3 1 _ (by decide)
    (by decide)).mpr (Or.inr ?_)⟩
  decide +kernel

/-- The only dense hit is evicted for a bridge. -/
theorem best_hit_is_evicted :
    ¬Fused 1 1 [hitOf 1] (laneCandidates counting upwards shared 10 32 1 4 [hitOf 1])
      (bridgeLane counting upwards shared texts 10 32 1 4 [hitOf 1]) := by
  intro h
  have hids : (bridgeLane counting upwards shared texts 10 32 1 4 [hitOf 1]).map (·.memoryId) = [2] := by
    decide +kernel
  have hmem := List.mem_map_of_mem (f := (·.memoryId)) (h.top (hitOf 1) rfl)
  rw [hids] at hmem
  exact absurd hmem (by decide)

end ChittaField.Bridge
