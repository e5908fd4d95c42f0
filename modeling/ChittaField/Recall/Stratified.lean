import ChittaField.Recall.Hits

/-!
# Stratified recall

No realm may flood a recall that is not scoped: which of the sorted hits `stratify_recall_hits` keeps.
-/

namespace ChittaField

variable {D : Type*} (cap : String → ℕ) (before hits : List (RecallHit D)) (k : ℕ)

/-- The cap of a realm, where its reliability asks for some number of hits. -/
def sampleArm (rounded : String → ℕ → ℕ) (realm : String) : ℕ := max (rounded realm k) 1

/-- Keep hits while their realms have room, and stop at `k`; `n` hits were kept before. -/
def keepHits : ℕ → (String → ℕ) → List (RecallHit D) → List (RecallHit D)
  | _, _, [] => []
  | n, counts, hit :: hits =>
    if n = k then []
    else if counts hit.realm < cap hit.realm then
      hit :: keepHits (n + 1) (Function.update counts hit.realm (counts hit.realm + 1)) hits
    else keepHits n counts hits

/-- The hits that are kept; without reliabilities, or with a hit at most, the first ones. -/
def stratifyRecallHits (reliability : Option (String → ℕ → ℕ)) : List (RecallHit D) :=
  match reliability with
  | some rounded =>
    if 0 < k ∧ 1 < hits.length then keepHits (sampleArm k rounded) k 0 (fun _ => 0) hits
    else hits.take k
  | none => hits.take k

/-- The hits with fewer hits of their realm before them than its cap; some hits come before all. -/
def underCap : List (RecallHit D) :=
  ((hits.zipIdx before.length).filter fun p =>
    ((before ++ hits).take p.2).countP (·.realm = p.1.realm) < cap p.1.realm).map Prod.fst

lemma underCap_cons (hit : RecallHit D) :
    underCap cap before (hit :: hits) =
      if before.countP (·.realm = hit.realm) < cap hit.realm then
        hit :: underCap cap (before ++ [hit]) hits
      else underCap cap (before ++ [hit]) hits := by
  simp [underCap, List.filter_cons, apply_ite]

/-- What was kept of a realm are the hits before, or the cap. -/
lemma keepHits_eq {n : ℕ} (hn : n ≤ k) :
    keepHits cap k n (fun realm => min (cap realm) (before.countP (·.realm = realm))) hits =
      (underCap cap before hits).take (k - n) := by
  induction hits generalizing n before with
  | nil => simp [keepHits, underCap]
  | cons hit hits ih =>
    rw [keepHits, underCap_cons]
    simp only [min_lt_iff, lt_self_iff_false, false_or]
    split_ifs with hk hroom
    · simp [hk]
    · simp [hk]
    · rw [List.take_cons (by omega), Nat.sub_sub, ← ih _ (by omega)]
      congr 2
      funext realm
      grind
    · rw [← ih _ hn]
      congr 1
      funext realm
      grind

/-- The pass keeps the first `k` of the hits with fewer hits of their realm before them than its cap. -/
theorem stratify_recall_hits (rounded : String → ℕ → ℕ) :
    stratifyRecallHits hits k (some rounded) = (underCap (sampleArm k rounded) [] hits).take k := by
  unfold stratifyRecallHits
  dsimp only
  split_ifs with h
  · simpa using keepHits_eq (sampleArm k rounded) [] hits k k.zero_le
  · match k, hits with
    | 0, _ => simp
    | _, [] => rfl
    | _, [_] => simp [underCap, sampleArm]
    | k + 1, _ :: _ :: _ => simp at h

end ChittaField
