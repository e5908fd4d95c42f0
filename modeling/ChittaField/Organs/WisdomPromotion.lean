import ChittaField.Lib.Maps
import ChittaField.Lib.Replayed
import ChittaField.Log.Reader
import ChittaField.Memory.State

/-!
# The wisdom promotion store

A cluster of episodes is a candidate for wisdom.  A call that meets a cluster again patches the
candidate and keeps what has become of it, while the operation that the call logs replaces the whole
candidate by a fresh one.  `promotion_survives` says when a replay of the log rebuilds the store.
-/

namespace ChittaField

variable {F : Type}

/-! ## The data -/

/-- What has become of a candidate. -/
inductive WisdomLifecycle where
  | candidate
  | provisional
  | trusted
  | demoted
  deriving DecidableEq, Repr

def WisdomLifecycle.ofU8 : ℕ → WisdomLifecycle
  | 0 => .candidate
  | 1 => .provisional
  | 2 => .trusted
  | 3 => .demoted
  | _ => .candidate

def WisdomLifecycle.asU8 : WisdomLifecycle → ℕ
  | .candidate => 0
  | .provisional => 1
  | .trusted => 2
  | .demoted => 3

@[simp]
lemma WisdomLifecycle.ofU8_asU8 (l : WisdomLifecycle) : ofU8 l.asU8 = l := by
  cases l <;> rfl

/-- A candidate. -/
structure WisdomCandidate (F : Type) where
  id : ℕ
  clusterKey : String
  domain : String
  action : String
  summary : String
  episodeIds : List ℕ
  debtIds : List ℕ
  supportCount : ℕ
  crossSessionCount : ℕ
  meanSurprise : F
  promotionScore : F
  contradictionCount : ℕ
  lifecycle : WisdomLifecycle
  memoryId : Option ℕ
  createdMs : ℤ
  updatedMs : ℤ

def minSupportCount : ℕ := 4

def minCrossSessions : ℕ := 2

/-- The candidates, and the indexes of them. -/
structure WisdomPromotionStore (F : Type) where
  nextId : ℕ
  candidates : List (WisdomCandidate F)
  idToIndex : ℕ → Option ℕ
  byClusterKey : String → Option ℕ
  byDomain : String → Option (List ℕ)

namespace WisdomPromotionStore

/-! ## Changes -/

def new : WisdomPromotionStore F := ⟨1, [], fun _ => none, fun _ => none, fun _ => none⟩

def get (s : WisdomPromotionStore F) (id : ℕ) : Option (WisdomCandidate F) :=
  (s.idToIndex id).bind fun idx => s.candidates[idx]?

/-- Change the candidate of a position. -/
def modify (s : WisdomPromotionStore F) (idx : ℕ) (f : WisdomCandidate F → WisdomCandidate F) :
    WisdomPromotionStore F :=
  { s with candidates := s.candidates.modify idx f }

/-- Put a candidate behind all. -/
def push (s : WisdomPromotionStore F) (w : WisdomCandidate F) : WisdomPromotionStore F :=
  { s with
    candidates := s.candidates ++ [w]
    idToIndex := Function.update s.idToIndex w.id (some s.candidates.length)
    byClusterKey := Function.update s.byClusterKey w.clusterKey (some w.id)
    byDomain := Function.update s.byDomain w.domain
      (some ((s.byDomain w.domain).getD [] ++ [w.id])) }

/-- What a call says of a cluster. -/
structure Cluster (F : Type) where
  clusterKey : String
  domain : String
  action : String
  summary : String
  episodeIds : List ℕ
  debtIds : List ℕ
  supportCount : ℕ
  crossSessionCount : ℕ
  meanSurprise : F
  promotionScore : F

/-- A candidate that nothing has become of. -/
def Cluster.candidate (k : Cluster F) (id : ℕ) (now : ℤ) : WisdomCandidate F where
  id := id
  clusterKey := k.clusterKey
  domain := k.domain
  action := k.action
  summary := k.summary
  episodeIds := k.episodeIds
  debtIds := k.debtIds
  supportCount := k.supportCount
  crossSessionCount := k.crossSessionCount
  meanSurprise := k.meanSurprise
  promotionScore := k.promotionScore
  contradictionCount := 0
  lifecycle := .candidate
  memoryId := none
  createdMs := now
  updatedMs := now

/-- A candidate whose cluster is met again. -/
def Cluster.patch (k : Cluster F) (now : ℤ) (w : WisdomCandidate F) : WisdomCandidate F :=
  { w with
    summary := k.summary
    episodeIds := k.episodeIds
    debtIds := k.debtIds
    supportCount := k.supportCount
    crossSessionCount := k.crossSessionCount
    meanSurprise := k.meanSurprise
    promotionScore := k.promotionScore
    updatedMs := now }

/-- Add a cluster, or patch its candidate; the id of the candidate. -/
def upsertCandidate (s : WisdomPromotionStore F) (k : Cluster F) (now : ℤ) :
    WisdomPromotionStore F × ℕ :=
  match s.byClusterKey k.clusterKey with
  | some existingId =>
    match s.idToIndex existingId with
    | some idx => (s.modify idx (k.patch now), existingId)
    | none => (s, existingId)
  | none => ({ s with nextId := s.nextId + 1 }.push (k.candidate s.nextId now), s.nextId)

/-- Add a candidate, or put it in the place of the one of its cluster. -/
def replayUpsert (s : WisdomPromotionStore F) (w : WisdomCandidate F) : WisdomPromotionStore F :=
  let s := { s with nextId := if w.id ≥ s.nextId then w.id + 1 else s.nextId }
  match (s.byClusterKey w.clusterKey).bind s.idToIndex with
  | some idx => { s with candidates := s.candidates.set idx w }
  | none => s.push w

/-- A candidate that something has become of. -/
def moved (newState : WisdomLifecycle) (memoryId : Option ℕ) (contradictionCount : ℕ) (now : ℤ)
    (w : WisdomCandidate F) : WisdomCandidate F :=
  { w with
    lifecycle := newState
    memoryId := memoryId.or w.memoryId
    contradictionCount := contradictionCount
    updatedMs := now }

/-- Change what has become of a candidate; whether there is one. -/
def updateLifecycle (s : WisdomPromotionStore F) (id : ℕ) (newState : WisdomLifecycle)
    (memoryId : Option ℕ) (contradictionCount : ℕ) (now : ℤ) : WisdomPromotionStore F × Bool :=
  match s.idToIndex id with
  | some idx => (s.modify idx (moved newState memoryId contradictionCount now), true)
  | none => (s, false)

def replayLifecycle (s : WisdomPromotionStore F) (id newState : ℕ) (memoryId : Option ℕ)
    (contradictionCount : ℕ) (updatedMs : ℤ) : WisdomPromotionStore F :=
  (s.updateLifecycle id (.ofU8 newState) memoryId contradictionCount updatedMs).1

/-- The candidates that may become provisional. -/
def promotable [F32 F] (s : WisdomPromotionStore F) (minScore : F) : List (WisdomCandidate F) :=
  s.candidates.filter fun c =>
    c.lifecycle = .candidate && minSupportCount ≤ c.supportCount &&
      minCrossSessions ≤ c.crossSessionCount && F32.le minScore c.promotionScore &&
        c.contradictionCount = 0

/-- Apply an operation of the log. -/
def apply (s : WisdomPromotionStore F) : Op F → WisdomPromotionStore F
  | .upsertWisdomCandidate w =>
    s.replayUpsert <| Cluster.candidate ⟨w.clusterKey, w.domain, w.action, w.summary, w.episodeIds,
      w.debtIds, w.supportCount, w.crossSessionCount, w.meanSurprise, w.promotionScore⟩
      w.candidateId w.createdMs
  | .updateWisdomLifecycle l =>
    s.replayLifecycle l.candidateId l.newState l.memoryId l.contradictionCount l.updatedMs
  | _ => s

/-! ## Live calls -/

/-- A call that changes candidates. -/
inductive Call (F : Type) where
  | upsertWisdomCandidate (k : Cluster F)
  | updateWisdomLifecycle (candidateId : ℕ) (newState : WisdomLifecycle) (memoryId : Option ℕ)
      (contradictionCount : ℕ)

/-- Make a call; the store, and what it gives to the log. -/
def call (s : WisdomPromotionStore F) (now : ℤ) : Call F → WisdomPromotionStore F × List (Op F)
  | .upsertWisdomCandidate k =>
    let r := s.upsertCandidate k now
    (r.1, [.upsertWisdomCandidate
      { candidateId := r.2
        clusterKey := k.clusterKey
        domain := k.domain
        action := k.action
        summary := k.summary
        episodeIds := k.episodeIds
        debtIds := k.debtIds
        supportCount := k.supportCount
        crossSessionCount := k.crossSessionCount
        meanSurprise := k.meanSurprise
        promotionScore := k.promotionScore
        createdMs := now }])
  | .updateWisdomLifecycle id newState memoryId contradictionCount =>
    let oldState := ((s.get id).map (·.lifecycle.asU8)).getD 0
    let r := s.updateLifecycle id newState memoryId contradictionCount now
    (r.1, if r.2 then
      [.updateWisdomLifecycle ⟨id, memoryId, oldState, newState.asU8, contradictionCount, now⟩]
      else [])

/-- A call at a time, and whether the log takes its operation. -/
structure Timed (F : Type) where
  now : ℤ
  call : Call F
  append : Except FieldError Unit

/-- Make a call.  Nothing is done where the store is disabled; where the append fails, the store has
changed already. -/
def live (disabled : Bool) (s : WisdomPromotionStore F) (c : Timed F) :
    WisdomPromotionStore F × List (Op F) :=
  if disabled then (s, [])
  else
    let r := s.call c.now c.call
    (r.1, if c.append.isOk then r.2 else [])

/-! ## Clusters and ids -/

/-- The index has the positions of ids that were given out, and every cluster that is known has its
candidate there. -/
structure Sound (s : WisdomPromotionStore F) : Prop where
  numbered : ∀ id i, s.idToIndex id = some i → id < s.nextId
  keyed : ∀ key id, s.byClusterKey key = some id → ∃ i w, s.idToIndex id = some i ∧
    s.candidates[i]? = some w ∧ w.id = id ∧ w.clusterKey = key

variable {s : WisdomPromotionStore F}

lemma sound_new : (new : WisdomPromotionStore F).Sound :=
  ⟨fun _ _ h => (nomatch h), fun _ _ h => (nomatch h)⟩

/-- A change that keeps the id and the cluster of a candidate. -/
lemma Sound.modify (h : s.Sound) (idx : ℕ) {f : WisdomCandidate F → WisdomCandidate F}
    (hid : ∀ w, (f w).id = w.id) (hkey : ∀ w, (f w).clusterKey = w.clusterKey) :
    (s.modify idx f).Sound := by
  refine ⟨h.numbered, fun key id hk => ?_⟩
  obtain ⟨i, w, hi, hw, rfl, rfl⟩ := h.keyed key id hk
  have hw' : (s.modify idx f).candidates[i]? = some (if idx = i then f w else w) := by
    simp only [WisdomPromotionStore.modify, List.getElem?_modify, hw, Option.map_eq_map,
      Option.map_some]
  refine ⟨i, _, hi, hw', ?_, ?_⟩
  · split_ifs
    · exact hid w
    · rfl
  · split_ifs
    · exact hkey w
    · rfl

/-- A candidate with the next id. -/
lemma Sound.push (h : s.Sound) (w : WisdomCandidate F) (hid : w.id = s.nextId) :
    (WisdomPromotionStore.push { s with nextId := s.nextId + 1 } w).Sound := by
  refine ⟨Maps.forall_update (fun id i hi => Nat.lt_succ_of_lt (h.numbered id i hi)) fun _ _ =>
    hid ▸ Nat.lt_succ_self _, Maps.forall_update (fun key id hk => ?_) ?_⟩
  · obtain ⟨i, v, hi, hv, rfl, rfl⟩ := h.keyed key id hk
    have hne : v.id ≠ w.id := (hid ▸ h.numbered _ _ hi).ne
    refine ⟨i, v, ?_, ?_, rfl, rfl⟩
    · exact (Function.update_of_ne hne ..).trans hi
    · exact List.getElem?_append_left (List.getElem?_eq_some_iff.mp hv).1 |>.trans hv
  · rintro _ ⟨⟩
    exact ⟨s.candidates.length, w, Function.update_self .., List.getElem?_concat_length, rfl, rfl⟩

/-- Every call keeps the clusters. -/
lemma Sound.live (h : s.Sound) (disabled : Bool) (c : Timed F) : (s.live disabled c).1.Sound := by
  unfold WisdomPromotionStore.live
  cases disabled with
  | true => exact h
  | false =>
    simp only [Bool.false_eq_true, if_false]
    cases c.call with
    | upsertWisdomCandidate k =>
      simp only [call, upsertCandidate]
      split
      · split
        · exact h.modify _ (fun _ => rfl) fun _ => rfl
        · exact h
      · exact h.push _ rfl
    | updateWisdomLifecycle =>
      simp only [call, updateLifecycle]
      split
      · exact h.modify _ (fun _ => rfl) fun _ => rfl
      · exact h

/-! ## A restart -/

/-- What has become of a candidate is what becomes of one that is met for the first time. -/
def Cluster.Untouched (k : Cluster F) (now : ℤ) (w : WisdomCandidate F) : Prop :=
  w.lifecycle = .candidate ∧ w.memoryId = none ∧ w.contradictionCount = 0 ∧ w.createdMs = now ∧
    w.domain = k.domain ∧ w.action = k.action

instance (k : Cluster F) (now : ℤ) : DecidablePred (k.Untouched now) :=
  fun _ => inferInstanceAs (Decidable (_ ∧ _))

/-- Meeting an untouched candidate again is meeting its cluster for the first time. -/
lemma Cluster.patch_of_untouched {k : Cluster F} {now : ℤ} {w : WisdomCandidate F}
    (h : k.Untouched now w) (hkey : w.clusterKey = k.clusterKey) :
    k.patch now w = k.candidate w.id now := by
  obtain ⟨hlife, hmem, hcon, hcreated, hdomain, haction⟩ := h
  simp only [Cluster.patch, Cluster.candidate, hlife, hmem, hcon, hcreated, hdomain, haction, hkey]

/-- A call that the log tells of as it was done: it appends, and a cluster that it meets again has an
untouched candidate. -/
def Told (s : WisdomPromotionStore F) (c : Timed F) : Prop :=
  c.append.isOk = true ∧
    match c.call with
    | .upsertWisdomCandidate k =>
      ∀ w ∈ (s.byClusterKey k.clusterKey).bind s.get, k.Untouched c.now w
    | .updateWisdomLifecycle _ _ _ _ => True

/-- A replayed candidate that is what a patch makes of the one it replaces. -/
lemma replayUpsert_of_known {k : Cluster F} {now : ℤ} {i : ℕ} {w : WisdomCandidate F}
    (hkey : s.byClusterKey k.clusterKey = some w.id) (hi : s.idToIndex w.id = some i)
    (hlt : w.id < s.nextId) (hw : s.candidates[i]? = some w)
    (hpatch : k.patch now w = k.candidate w.id now) :
    s.replayUpsert (k.candidate w.id now) = s.modify i (k.patch now) := by
  have hlist : s.candidates.set i (k.candidate w.id now) =
      s.candidates.modify i (k.patch now) := by
    rw [List.modify_eq_set_getElem?, hw, ← hpatch]
    rfl
  have hbind : (s.byClusterKey (k.candidate w.id now).clusterKey).bind s.idToIndex = some i := by
    rw [show (k.candidate w.id now).clusterKey = k.clusterKey from rfl, hkey, Option.bind_some, hi]
  have hnext : ¬(k.candidate w.id now).id ≥ s.nextId := Nat.not_le.mpr hlt
  simp only [replayUpsert, hbind, hnext, if_false, WisdomPromotionStore.modify, hlist]

/-- A call that the log tells of, and its replay. -/
lemma apply_live (hs : s.Sound) {disabled : Bool} {c : Timed F} (h : s.Told c) :
    (s.live disabled c).2.foldl apply s = (s.live disabled c).1 := by
  obtain ⟨now, call, append⟩ := c
  obtain ⟨happend, htold⟩ := h
  simp only at happend htold
  unfold live
  cases disabled with
  | true => rfl
  | false =>
    simp only [happend, if_true, Bool.false_eq_true, if_false]
    cases call with
    | upsertWisdomCandidate k =>
      cases hkey : s.byClusterKey k.clusterKey with
      | none =>
        simp [WisdomPromotionStore.call, upsertCandidate, hkey, apply, replayUpsert,
          Cluster.candidate]
      | some id =>
        obtain ⟨i, w, hi, hw, rfl, hk⟩ := hs.keyed _ id hkey
        have huntouched : k.Untouched now w := htold w (by simp [hkey, get, hi, hw])
        have hreplay : s.replayUpsert (k.candidate w.id now) = s.modify i (k.patch now) :=
          replayUpsert_of_known hkey hi (hs.numbered _ _ hi) hw
            (Cluster.patch_of_untouched huntouched hk)
        simp only [WisdomPromotionStore.call, upsertCandidate, hkey, hi]
        exact hreplay
    | updateWisdomLifecycle id =>
      simp only [WisdomPromotionStore.call]
      cases hidx : s.idToIndex id with
      | none => simp [updateLifecycle, hidx]
      | some idx => simp [updateLifecycle, hidx, apply, replayLifecycle]

/-- Behind calls that the log tells of, a replay rebuilds the store. -/
theorem promotion_survives (disabled : Bool) {calls : List (Timed F)}
    (h : Replayed.All (live disabled) Told new calls) :
    (Replayed.run (live disabled) new calls).2.foldl apply new =
      (Replayed.run (live disabled) new calls).1 := by
  have hstep : ∀ (s t : WisdomPromotionStore F) c, t = s ∧ s.Sound → s.Told c →
      (s.live disabled c).2.foldl apply t = (s.live disabled c).1 ∧
        (s.live disabled c).1.Sound := by
    rintro s t c ⟨rfl, hs⟩ hc
    exact ⟨apply_live hs hc, hs.live disabled c⟩
  exact (Replayed.related_run (fun s t => t = s ∧ s.Sound) hstep ⟨rfl, sound_new⟩ h).1

/-! ## A promotion -/

/-- A cluster with enough support. -/
def sampleCluster (summary : String) : Cluster ℚ :=
  ⟨"lint:code", "code", "lint", summary, [1, 2, 3, 4], [], 4, 2, 1 / 2, 3 / 4⟩

/-- A candidate is promoted and its cluster is met again: the store has the promotion, and a replay
offers the candidate for promotion once more. -/
theorem promotion_forgotten :
    let r := Replayed.run (live false) new
      [⟨5, .upsertWisdomCandidate (sampleCluster "a"), .ok ()⟩,
        ⟨6, .updateWisdomLifecycle 1 .trusted (some 9) 0, .ok ()⟩,
        ⟨7, .upsertWisdomCandidate (sampleCluster "b"), .ok ()⟩]
    let replayed := r.2.foldl apply new
    ((r.1.get 1).map fun w => (w.lifecycle, w.memoryId, w.createdMs)) =
        some (.trusted, some 9, 5) ∧
      ((replayed.get 1).map fun w => (w.lifecycle, w.memoryId, w.createdMs)) =
        some (.candidate, none, 7) ∧
      (r.1.promotable (1 / 2)).map (·.id) = [] ∧
        (replayed.promotable (1 / 2)).map (·.id) = [1] := by
  decide +kernel

/-- Two clusters; one of them is met twice in a millisecond and promoted later. -/
theorem promotion_survives_sample :
    let r := Replayed.run (live false) (new : WisdomPromotionStore ℚ)
      [⟨5, .upsertWisdomCandidate (sampleCluster "a"), .ok ()⟩,
        ⟨5, .upsertWisdomCandidate (sampleCluster "b"), .ok ()⟩,
        ⟨6, .upsertWisdomCandidate ⟨"test:code", "code", "test", "", [], [], 1, 1, 0, 0⟩, .ok ()⟩,
        ⟨7, .updateWisdomLifecycle 1 .provisional none 0, .ok ()⟩,
        ⟨8, .updateWisdomLifecycle 1 .trusted (some 9) 1, .ok ()⟩]
    r.2.foldl apply new = r.1 :=
  promotion_survives false ⟨⟨rfl, by decide +kernel⟩, ⟨rfl, by decide +kernel⟩,
    ⟨rfl, by decide +kernel⟩, ⟨rfl, trivial⟩, ⟨rfl, trivial⟩, trivial⟩

end WisdomPromotionStore

end ChittaField
