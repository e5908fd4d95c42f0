import Mathlib.Data.Prod.Lex
import Mathlib.Tactic.NormNum
import Mathlib.Tactic.Ring
import ChittaField.Lib.HashMaps
import ChittaField.Memory.Indexes
import ChittaField.Recall.Hits

/-!
# Expansion over associations

From some seeds the edges are followed, for one hop or two, and every memory that is met keeps the
strongest activation it was met with.  The walk has a stack.  A memory is followed further only when its
activation gets stronger; but a memory may have been met in two hops, behind which the walk ends, before
it is met in one.  The arithmetic is that of rational numbers here.  `expand_finds_best_iff` says when the
walk finds the strongest paths all the same.
-/

namespace ChittaField.Associations

open HashMaps

/-! ## The walk -/

def hopDecay : ℚ := 55 / 100

def fanoutCap : ℕ := 16

def edgePrior : EdgeType → ℚ
  | .derivedFrom => 1
  | .sameArtifact => 8 / 10
  | .sameSession => 6 / 10
  | .coRetrieved => 5 / 10
  | .supports => 4 / 10
  | .contradicts => 3 / 10
  | .semanticNeighbor => 7 / 10

/-- A memory that waits to be followed, with its activation and the hops that are left. -/
structure Waiting where
  node : MemoryId
  act : ℚ
  hopsLeft : ℕ

/-- The strongest activation of every memory that was met. -/
abbrev Activation := Finmap fun _ : MemoryId => ℚ

section Walk

variable (states : MemoryId → Option (MemoryState ℚ)) (edges : AssocEdges ℚ)

/-- Follow an edge: what it leads to may get stronger, and then waits, if there are hops left. -/
def relax (act : ℚ) (hopsLeft : ℕ) (s : Activation × List Waiting) (e : AssocEdge ℚ) :
    Activation × List Waiting :=
  if legal states e.dst then
    let edgeAct := act * hopDecay * edgePrior e.edgeType * e.weight
    let entry := (s.1.lookup e.dst).getD 0
    if entry < edgeAct then
      (s.1.insert e.dst edgeAct, if 1 < hopsLeft then ⟨e.dst, edgeAct, hopsLeft - 1⟩ :: s.2 else s.2)
    else (s.1.insert e.dst entry, s.2)
  else s

/-- The edges of a memory that are followed. -/
def followed (node : MemoryId) : List (AssocEdge ℚ) := ((edges node).getD []).take fanoutCap

/-- Follow what waits on the stack; the fuel is used up by what waits. -/
def walk : ℕ → List Waiting → Activation → Activation
  | 0, _, activation => activation
  | _ + 1, [], activation => activation
  | fuel + 1, w :: frontier, activation =>
    if w.hopsLeft = 0 then walk fuel frontier activation
    else
      let s := (followed edges w.node).foldl (relax states w.act w.hopsLeft) (activation, frontier)
      walk fuel s.2 s.1

/-- The activations behind a walk from some seeds, of which the last one is followed first. -/
def activations (seedIds : List MemoryId) (maxHops : ℕ) : Activation :=
  walk states edges ((fanoutCap + 1) * seedIds.length)
    (seedIds.map fun id => ⟨id, 1, min maxHops 2⟩).reverse ∅

end Walk

/-! ## The hits -/

/-- What statuses multiply a score with. -/
structure StatusMuls where
  active : ℚ
  verified : ℚ
  observed : ℚ
  proposed : ℚ

/-- What a status multiplies a score with; some statuses take no part. -/
def statusMultiplier (m : StatusMuls) : MemoryStatus → Option ℚ
  | .active => some m.active
  | .verified => some m.verified
  | .observed => some m.observed
  | .proposed => some m.proposed
  | .superseded | .contradicted | .archived => none

/-- A score with its parts. -/
structure Expanded where
  score : ℚ
  strength : ℚ
  statusMul : ℚ

/-- A store, as the expansion reads it. -/
structure Graph where
  states : MemoryId → Option (MemoryState ℚ)
  payloads : MemoryId → Option (MemoryPayload ℚ)
  edges : AssocEdges ℚ
  muls : StatusMuls
  /-- The strength of a state at the time of the call. -/
  effectiveStrength : MemoryState ℚ → ℚ

namespace Graph

variable (g : Graph)

/-- The hit of a memory that was met, unless it is a seed. -/
def hitOf (seedIds : List MemoryId) (x : MemoryId × ℚ) : Option (RecallHit Expanded) :=
  if x.1 ∈ seedIds then none
  else (g.states x.1).bind fun state =>
    if state.deleted then none
    else (statusMultiplier g.muls state.status).bind fun statusMul =>
      (g.payloads x.1).map fun payload =>
        let strength := g.effectiveStrength state
        ⟨x.1, payload.createdAtMs, payload.kind, payload.realm, decodeText payload.content,
          ⟨x.2 * strength * statusMul, strength, statusMul⟩⟩

/-- The higher score first; of equal scores the smaller id. -/
def before (a b : RecallHit Expanded) : Prop :=
  toLex (-a.scored.score, a.memoryId) ≤ toLex (-b.scored.score, b.memoryId)

instance : DecidableRel before := fun _ _ => inferInstanceAs (Decidable (_ ≤ _))

/-- The memories that the associations of some seeds lead to. -/
def expandAssociations (order : KeyOrder MemoryId) (seedIds : List MemoryId) (maxHops limit : ℕ) :
    List (RecallHit Expanded) :=
  (((entries order (activations g.states g.edges seedIds maxHops)).filterMap
    (g.hitOf seedIds)).insertionSort before).take limit

end Graph

/-! ## Paths -/

section Paths

variable (states : MemoryId → Option (MemoryState ℚ)) (edges : AssocEdges ℚ)

/-- A followed edge to a memory that may be found, with its decayed weight. -/
def Arrow (a b : MemoryId) (w : ℚ) : Prop :=
  ∃ e ∈ followed edges a, e.dst = b ∧ legal states b = true ∧
    w = hopDecay * edgePrior e.edgeType * e.weight

/-- A path of two hops. -/
def TwoHops (a b : MemoryId) (w : ℚ) : Prop :=
  ∃ u w₁ w₂, Arrow states edges a u w₁ ∧ Arrow states edges u b w₂ ∧ w = w₁ * w₂

/-- A path from a seed, with the product of its weights. -/
def Reaches (seedIds : List MemoryId) (maxHops : ℕ) (b : MemoryId) (w : ℚ) : Prop :=
  ∃ s ∈ seedIds, Arrow states edges s b w ∨ 2 ≤ maxHops ∧ TwoHops states edges s b w

/-- A memory is met in two hops from some seeds, at least as strongly as that: by a path whose first hop
leads to a memory that the seeds behind the path's seed do not meet in two hops as strongly. -/
def Met : List MemoryId → MemoryId → ℚ → Prop
  | [], _, _ => False
  | s :: later, b, w => Met later b w ∨ ∃ u w₁ w₂, Arrow states edges s u w₁ ∧
      Arrow states edges u b w₂ ∧ w ≤ w₁ * w₂ ∧ ¬Met later u w₁

end Paths

/-! ## Following edges -/

section Following

variable {states : MemoryId → Option (MemoryState ℚ)} {edges : AssocEdges ℚ} {act : ℚ} {hops : ℕ}
  {A A' : Activation} {F F' : List Waiting} {es : List (AssocEdge ℚ)}

/-- The decayed weight of an edge. -/
def decayed (e : AssocEdge ℚ) : ℚ := hopDecay * edgePrior e.edgeType * e.weight

lemma decayed_pos {e : AssocEdge ℚ} (h : 0 < e.weight) : 0 < decayed e := by
  have hprior : 0 < edgePrior e.edgeType := by
    cases e.edgeType <;> norm_num [edgePrior]
  have hdecay : 0 < hopDecay := by norm_num [hopDecay]
  exact mul_pos (mul_pos hdecay hprior) h

/-- A memory was met with that activation, or a stronger one. -/
def AtLeast (A : Activation) (v : MemoryId) (a : ℚ) : Prop := ∃ a', A.lookup v = some a' ∧ a ≤ a'

lemma AtLeast.mono {v : MemoryId} {a b : ℚ} (h : AtLeast A v a) (hle : b ≤ a) : AtLeast A v b := by
  obtain ⟨a', ha', haa'⟩ := h
  exact ⟨a', ha', hle.trans haa'⟩

/-- What following an edge does: nothing, if the memory may not be found or was met as strongly; else
the memory has the new activation, and waits if there are hops left. -/
lemma relax_cases (states : MemoryId → Option (MemoryState ℚ)) (hops : ℕ) (hact : 0 < act)
    {e : AssocEdge ℚ} (he : 0 < e.weight) (s : Activation × List Waiting) :
    (relax states act hops s e = s ∧
        (legal states e.dst = true → AtLeast s.1 e.dst (act * decayed e))) ∨
      legal states e.dst = true ∧ (∀ a, s.1.lookup e.dst = some a → a < act * decayed e) ∧
        relax states act hops s e = (s.1.insert e.dst (act * decayed e),
          if 1 < hops then ⟨e.dst, act * decayed e, hops - 1⟩ :: s.2 else s.2) := by
  have hpos : 0 < act * decayed e := mul_pos hact (decayed_pos he)
  have hedge : act * hopDecay * edgePrior e.edgeType * e.weight = act * decayed e := by
    unfold decayed
    ring
  unfold relax
  dsimp only
  rw [hedge]
  by_cases hlegal : legal states e.dst = true
  · rw [if_pos hlegal]
    by_cases hlt : (s.1.lookup e.dst).getD 0 < act * decayed e
    · rw [if_pos hlt]
      refine Or.inr ⟨hlegal, fun a ha => ?_, rfl⟩
      rw [ha] at hlt
      exact hlt
    · -- an activation that is not weaker was met before
      rw [if_neg hlt]
      cases hlookup : s.1.lookup e.dst with
      | none =>
        rw [hlookup] at hlt
        exact absurd hpos hlt
      | some a =>
        rw [hlookup, Option.getD_some] at hlt
        refine Or.inl ⟨Prod.ext (Finmap.ext_lookup fun v => ?_) rfl, fun _ => ⟨a, hlookup, not_lt.mp hlt⟩⟩
        by_cases hv : v = e.dst
        · subst hv
          rw [Finmap.lookup_insert, hlookup]
          rfl
        · exact Finmap.lookup_insert_of_ne _ hv
  · rw [if_neg hlegal]
    exact Or.inl ⟨rfl, fun h => absurd h hlegal⟩

/-- What following some edges does. -/
structure Relaxed (states : MemoryId → Option (MemoryState ℚ)) (act : ℚ) (hops : ℕ)
    (es : List (AssocEdge ℚ)) (A A' : Activation) (new : List Waiting) : Prop where
  sound : ∀ v a, A'.lookup v = some a → A.lookup v = some a ∨
    ∃ e ∈ es, e.dst = v ∧ legal states v = true ∧ a = act * decayed e
  kept : ∀ v a, AtLeast A v a → AtLeast A' v a
  met : ∀ e ∈ es, legal states e.dst = true → AtLeast A' e.dst (act * decayed e)
  few : new.length ≤ es.length
  waiting : ∀ x ∈ new, x.hopsLeft = hops - 1 ∧ ¬AtLeast A x.node x.act ∧
    ∃ e ∈ es, e.dst = x.node ∧ legal states x.node = true ∧ x.act = act * decayed e
  waits : 1 < hops → ∀ e ∈ es, legal states e.dst = true →
    AtLeast A e.dst (act * decayed e) ∨ ∃ x ∈ new, x.node = e.dst ∧ act * decayed e ≤ x.act

lemma relaxed_foldl (states : MemoryId → Option (MemoryState ℚ)) (hops : ℕ) (hact : 0 < act)
    (hpos : ∀ e ∈ es, 0 < e.weight) (A : Activation) (F : List Waiting) :
    ∃ new, (es.foldl (relax states act hops) (A, F)).2 = new ++ F ∧
      Relaxed states act hops es A (es.foldl (relax states act hops) (A, F)).1 new := by
  induction es generalizing A F with
  | nil =>
    refine ⟨[], rfl, fun v a h => Or.inl h, fun _ _ h => h, ?_, le_rfl, ?_, ?_⟩
    · exact fun e he => absurd he List.not_mem_nil
    · exact fun x hx => absurd hx List.not_mem_nil
    · exact fun _ e he => absurd he List.not_mem_nil
  | cons e es ih =>
    have hrest : ∀ e ∈ es, 0 < e.weight := (List.forall_mem_cons.mp hpos).2
    rw [List.foldl_cons]
    rcases relax_cases states hops hact (hpos e List.mem_cons_self) (A, F) with
      ⟨heq, hstrong⟩ | ⟨hlegal, hweak, heq⟩
    · rw [heq]
      obtain ⟨new, hnew, h⟩ := ih hrest A F
      refine ⟨new, hnew, fun v a hv => ?_, h.kept,
        List.forall_mem_cons.mpr ⟨fun hl => h.kept _ _ (hstrong hl), h.met⟩, h.few.trans (Nat.le_succ _),
        fun x hx => ?_, fun hh => List.forall_mem_cons.mpr ⟨fun hl => Or.inl (hstrong hl), h.waits hh⟩⟩
      · exact (h.sound v a hv).imp id fun ⟨e', he', hx⟩ => ⟨e', List.mem_cons_of_mem _ he', hx⟩
      · obtain ⟨hleft, hnew, e', he', hx⟩ := h.waiting x hx
        exact ⟨hleft, hnew, e', List.mem_cons_of_mem _ he', hx⟩
    · rw [heq]
      have hself : (A.insert e.dst (act * decayed e)).lookup e.dst = some (act * decayed e) :=
        Finmap.lookup_insert _
      have hkept : ∀ v a, AtLeast A v a → AtLeast (A.insert e.dst (act * decayed e)) v a := by
        rintro v a ⟨a', ha', hle⟩
        by_cases hv : v = e.dst
        · subst hv
          exact ⟨_, hself, hle.trans (hweak a' ha').le⟩
        · exact ⟨a', (Finmap.lookup_insert_of_ne _ hv).trans ha', hle⟩
      obtain ⟨new, hnew, h⟩ := ih hrest (A.insert e.dst (act * decayed e))
        (if 1 < hops then ⟨e.dst, act * decayed e, hops - 1⟩ :: F else F)
      have hsound : ∀ v a, (es.foldl (relax states act hops) (A.insert e.dst (act * decayed e),
          if 1 < hops then ⟨e.dst, act * decayed e, hops - 1⟩ :: F else F)).1.lookup v = some a →
          A.lookup v = some a ∨ ∃ e' ∈ e :: es, e'.dst = v ∧ legal states v = true ∧
            a = act * decayed e' := by
        intro v a hv
        rcases h.sound v a hv with hv | ⟨e', he', hx⟩
        · by_cases hdst : v = e.dst
          · subst hdst
            rw [hself] at hv
            exact Or.inr ⟨e, List.mem_cons_self, rfl, hlegal, (Option.some.inj hv).symm⟩
          · rw [Finmap.lookup_insert_of_ne _ hdst] at hv
            exact Or.inl hv
        · exact Or.inr ⟨e', List.mem_cons_of_mem _ he', hx⟩
      have hmet : ∀ e' ∈ e :: es, legal states e'.dst = true →
          AtLeast (es.foldl (relax states act hops) (A.insert e.dst (act * decayed e),
            if 1 < hops then ⟨e.dst, act * decayed e, hops - 1⟩ :: F else F)).1 e'.dst
            (act * decayed e') := by
        exact List.forall_mem_cons.mpr ⟨fun _ => h.kept _ _ ⟨_, hself, le_rfl⟩, h.met⟩
      by_cases hh : 1 < hops
      · rw [if_pos hh] at hnew h hsound hmet ⊢
        refine ⟨new ++ [⟨e.dst, act * decayed e, hops - 1⟩], hnew.trans (by simp), hsound,
          fun v a hv => h.kept v a (hkept v a hv), hmet, ?_, fun x hx => ?_, fun _ e' he' hl => ?_⟩
        · rw [List.length_append, List.length_singleton, List.length_cons]
          exact Nat.succ_le_succ h.few
        · rcases List.mem_append.mp hx with hx | hx
          · obtain ⟨hleft, hnew, e', he', hx⟩ := h.waiting x hx
            exact ⟨hleft, fun hold => hnew (hkept _ _ hold), e', List.mem_cons_of_mem _ he', hx⟩
          · rw [List.mem_singleton.mp hx]
            refine ⟨rfl, ?_, e, List.mem_cons_self, rfl, hlegal, rfl⟩
            rintro ⟨a, ha, hle⟩
            exact absurd hle (not_le.mpr (hweak a ha))
        · rcases List.mem_cons.mp he' with rfl | he'
          · exact Or.inr ⟨_, List.mem_concat_self, rfl, le_rfl⟩
          · rcases h.waits hh e' he' hl with ⟨a, ha, hle⟩ | ⟨x, hx, hnode, hle⟩
            · by_cases hdst : e'.dst = e.dst
              · rw [hdst, hself] at ha
                refine Or.inr ⟨_, List.mem_concat_self, hdst.symm, ?_⟩
                exact hle.trans (Option.some.inj ha).ge
              · rw [Finmap.lookup_insert_of_ne _ hdst] at ha
                exact Or.inl ⟨a, ha, hle⟩
            · exact Or.inr ⟨x, List.mem_append_left _ hx, hnode, hle⟩
      · rw [if_neg hh] at hnew h hsound hmet ⊢
        refine ⟨new, hnew, hsound, fun v a hv => h.kept v a (hkept v a hv), hmet,
          h.few.trans (Nat.le_succ _), fun x hx => ?_, fun hh' => absurd hh' hh⟩
        obtain ⟨hleft, hnew, e', he', hx⟩ := h.waiting x hx
        exact ⟨hleft, fun hold => hnew (hkept _ _ hold), e', List.mem_cons_of_mem _ he', hx⟩

end Following

/-! ## The stack -/

section Stack

variable (states : MemoryId → Option (MemoryState ℚ)) (edges : AssocEdges ℚ)

/-- Follow a memory behind which the walk ends. -/
def expandLast (A : Activation) (x : Waiting) : Activation :=
  ((followed edges x.node).foldl (relax states x.act 1) (A, [])).1

/-- Follow a seed, and then what it leads to. -/
def expandSeed (A : Activation) (s : MemoryId) : Activation :=
  let r := (followed edges s).foldl (relax states 1 2) (A, [])
  r.2.foldl (expandLast states edges) r.1

variable {states edges}

/-- What is on the stack already does not matter. -/
lemma foldl_relax (act : ℚ) (hops : ℕ) (es : List (AssocEdge ℚ)) (A : Activation) (F : List Waiting) :
    es.foldl (relax states act hops) (A, F) = ((es.foldl (relax states act hops) (A, [])).1,
      (es.foldl (relax states act hops) (A, [])).2 ++ F) := by
  suffices hfold : ∀ (es : List (AssocEdge ℚ)) (A : Activation) (N F : List Waiting),
      es.foldl (relax states act hops) (A, N ++ F) = ((es.foldl (relax states act hops) (A, N)).1,
        (es.foldl (relax states act hops) (A, N)).2 ++ F) from hfold es A [] F
  intro es
  induction es with
  | nil => exact fun A N F => rfl
  | cons e es ih =>
    intro A N F
    have hstep : relax states act hops (A, N ++ F) e = ((relax states act hops (A, N) e).1,
        (relax states act hops (A, N) e).2 ++ F) := by
      unfold relax
      dsimp only
      split_ifs <;> rfl
    rw [List.foldl_cons, List.foldl_cons, hstep, ih]

/-- Without hops left nothing waits. -/
lemma foldl_relax_one (act : ℚ) (es : List (AssocEdge ℚ)) (A : Activation) (F : List Waiting) :
    (es.foldl (relax states act 1) (A, F)).2 = F := by
  induction es generalizing A F with
  | nil => rfl
  | cons e es ih =>
    have hstep : (relax states act 1 (A, F) e).2 = F := by
      unfold relax
      dsimp only
      split_ifs with _ _ hlt
      · exact absurd hlt (by omega)
      · rfl
      · rfl
      · rfl
    rw [List.foldl_cons]
    exact (ih (relax states act 1 (A, F) e).1 (relax states act 1 (A, F) e).2).trans hstep

lemma walk_nil (fuel : ℕ) (A : Activation) : walk states edges fuel [] A = A := by
  cases fuel <;> rfl

/-- What waits with one hop left is followed from the top. -/
lemma walk_last (states : MemoryId → Option (MemoryState ℚ)) (edges : AssocEdges ℚ)
    (xs rest : List Waiting) (hxs : ∀ x ∈ xs, x.hopsLeft = 1) (fuel : ℕ) (A : Activation) :
    walk states edges (xs.length + fuel) (xs ++ rest) A =
      walk states edges fuel rest (xs.foldl (expandLast states edges) A) := by
  induction xs generalizing A with
  | nil => rw [List.length_nil, Nat.zero_add, List.nil_append, List.foldl_nil]
  | cons x xs ih =>
    have hx : x.hopsLeft = 1 := hxs x List.mem_cons_self
    have hfuel : (x :: xs).length + fuel = (xs.length + fuel) + 1 := by
      rw [List.length_cons]
      omega
    rw [hfuel, List.cons_append, walk, hx, if_neg one_ne_zero]
    dsimp only
    rw [foldl_relax_one, foldl_relax, ih (List.forall_mem_cons.mp hxs).2]
    rfl

/-- The weights that are followed are positive. -/
def Positive (edges : AssocEdges ℚ) : Prop := ∀ src, ∀ e ∈ followed edges src, 0 < e.weight

/-- Seeds are followed one after the other, each with what it leads to. -/
lemma walk_seeds (hpos : Positive edges) (ss : List MemoryId) {fuel : ℕ}
    (hfuel : (fanoutCap + 1) * ss.length ≤ fuel) (A : Activation) :
    walk states edges fuel (ss.map fun id => ⟨id, 1, 2⟩) A = ss.foldl (expandSeed states edges) A := by
  induction ss generalizing fuel A with
  | nil => exact walk_nil fuel A
  | cons s ss ih =>
    obtain ⟨new, hnew, hrelaxed⟩ := relaxed_foldl states 2 one_pos (hpos s) A []
    rw [List.append_nil] at hnew
    have hfew : new.length ≤ fanoutCap := hrelaxed.few.trans (List.length_take_le _ _)
    rw [List.length_cons, Nat.mul_succ] at hfuel
    obtain ⟨rest, rfl⟩ : ∃ f, fuel = (new.length + f) + 1 := ⟨fuel - new.length - 1, by omega⟩
    rw [List.map_cons, walk, if_neg two_ne_zero]
    dsimp only
    rw [foldl_relax, hnew]
    dsimp only
    rw [walk_last states edges new _ (fun x hx => (hrelaxed.waiting x hx).1),
      ih (by omega), List.foldl_cons]
    unfold expandSeed
    dsimp only
    rw [hnew]

/-- The fuel lasts. -/
lemma activations_two (hpos : Positive edges) (seedIds : List MemoryId)
    {maxHops : ℕ} (hhops : 2 ≤ maxHops) :
    activations states edges seedIds maxHops =
      seedIds.reverse.foldl (expandSeed states edges) ∅ := by
  unfold activations
  rw [min_eq_right hhops, ← List.map_reverse]
  exact walk_seeds hpos _ (by rw [List.length_reverse]) ∅

lemma activations_one (seedIds : List MemoryId) :
    activations states edges seedIds 1 =
      (seedIds.reverse.map fun id => (⟨id, 1, 1⟩ : Waiting)).foldl (expandLast states edges) ∅ := by
  unfold activations
  have hfuel : (fanoutCap + 1) * seedIds.length =
      (seedIds.reverse.map fun id => (⟨id, 1, 1⟩ : Waiting)).length + fanoutCap * seedIds.length := by
    rw [List.length_map, List.length_reverse, Nat.succ_mul, Nat.add_comm]
  rw [min_eq_left (by omega), ← List.map_reverse, hfuel]
  have hlast := walk_last states edges
    (seedIds.reverse.map fun id => (⟨id, 1, 1⟩ : Waiting)) [] (fun x hx => ?_)
    (fanoutCap * seedIds.length) ∅
  · rwa [List.append_nil, walk_nil] at hlast
  · obtain ⟨id, -, rfl⟩ := List.mem_map.mp hx
    rfl

end Stack

/-! ## What is found -/

section Found

variable {states : MemoryId → Option (MemoryState ℚ)} {edges : AssocEdges ℚ} {A : Activation}
  {seedIds later : List MemoryId}

lemma relaxed_last (states : MemoryId → Option (MemoryState ℚ))
    (hpos : Positive edges) {x : Waiting} (hx : 0 < x.act)
    (A : Activation) :
    ∃ new, Relaxed states x.act 1 (followed edges x.node) A (expandLast states edges A x) new := by
  obtain ⟨new, -, h⟩ := relaxed_foldl states 1 hx (hpos x.node) A []
  exact ⟨new, h⟩

lemma Arrow.pos (hpos : Positive edges) {a b : MemoryId} {w : ℚ}
    (h : Arrow states edges a b w) : 0 < w := by
  obtain ⟨e, he, -, -, rfl⟩ := h
  exact decayed_pos (hpos a e he)

/-- Following memories with one hop left: activations come from what was there or from arrows, none gets
weaker, and every arrow counts. -/
lemma foldl_expandLast (states : MemoryId → Option (MemoryState ℚ))
    (hpos : Positive edges) (xs : List Waiting)
    (hxs : ∀ x ∈ xs, 0 < x.act) (A : Activation) :
    (∀ v a, (xs.foldl (expandLast states edges) A).lookup v = some a → A.lookup v = some a ∨
        ∃ x ∈ xs, ∃ w, Arrow states edges x.node v w ∧ a = x.act * w) ∧
      (∀ v a, AtLeast A v a → AtLeast (xs.foldl (expandLast states edges) A) v a) ∧
      ∀ x ∈ xs, ∀ v w, Arrow states edges x.node v w →
        AtLeast (xs.foldl (expandLast states edges) A) v (x.act * w) := by
  induction xs generalizing A with
  | nil => exact ⟨fun v a h => Or.inl h, fun _ _ h => h, fun x hx => absurd hx List.not_mem_nil⟩
  | cons x xs ih =>
    obtain ⟨new, hrelaxed⟩ := relaxed_last states hpos (hxs x List.mem_cons_self) A
    obtain ⟨hsound, hkept, hmet⟩ := ih (List.forall_mem_cons.mp hxs).2
      (expandLast states edges A x)
    refine ⟨fun v a hv => ?_, fun v a hv => hkept v a (hrelaxed.kept v a hv), fun y hy v w hw => ?_⟩
    · rcases hsound v a hv with hv | ⟨y, hy, hw⟩
      · rcases hrelaxed.sound v a hv with hv | ⟨e, he, hdst, hlegal, rfl⟩
        · exact Or.inl hv
        · exact Or.inr ⟨x, List.mem_cons_self, decayed e, ⟨e, he, hdst, hlegal, rfl⟩, rfl⟩
      · exact Or.inr ⟨y, List.mem_cons_of_mem _ hy, hw⟩
    · rcases List.mem_cons.mp hy with rfl | hy
      · obtain ⟨e, he, rfl, hlegal, rfl⟩ := hw
        exact hkept _ _ (hrelaxed.met e he hlegal)
      · exact hmet y hy v w hw

lemma Met.mono {b : MemoryId} {w w' : ℚ} (h : Met states edges later b w) (hle : w' ≤ w) :
    Met states edges later b w' := by
  induction later with
  | nil => exact h
  | cons s later ih =>
    rcases h with h | ⟨u, w₁, w₂, hfirst, hsecond, hw, hnot⟩
    · exact Or.inl (ih h)
    · exact Or.inr ⟨u, w₁, w₂, hfirst, hsecond, hle.trans hw, hnot⟩

/-- Where a memory is not met in two hops, what is met in one hop meets what follows. -/
lemma met_of_arrow {s u b : MemoryId} {w₁ w₂ : ℚ} (hs : s ∈ later) (hfirst : Arrow states edges s u w₁)
    (hsecond : Arrow states edges u b w₂) (hnot : ¬Met states edges later u w₁) :
    Met states edges later b (w₁ * w₂) := by
  induction later with
  | nil => exact absurd hs List.not_mem_nil
  | cons t later ih =>
    have hrest : ¬Met states edges later u w₁ := fun h => hnot (Or.inl h)
    rcases List.mem_cons.mp hs with rfl | hs
    · exact Or.inr ⟨u, w₁, w₂, hfirst, hsecond, le_rfl, hrest⟩
    · exact Or.inl (ih hs hrest)

/-- The activations behind some seeds: what is met in one hop and what is met in two. -/
structure Walked (states : MemoryId → Option (MemoryState ℚ)) (edges : AssocEdges ℚ)
    (later : List MemoryId) (A : Activation) : Prop where
  sound : ∀ v a, A.lookup v = some a → Reaches states edges later 2 v a
  met : ∀ v a, A.lookup v = some a →
    (∃ s ∈ later, Arrow states edges s v a) ∨ Met states edges later v a
  one : ∀ s ∈ later, ∀ v w, Arrow states edges s v w → AtLeast A v w
  two : ∀ v w, Met states edges later v w → AtLeast A v w

/-- A path of two hops whose first hop is as weak as something that was met. -/
lemma Walked.atLeast (h : Walked states edges later A)
    (hpos : Positive edges) {u v : MemoryId} {w₁ w₂ : ℚ}
    (hmet : AtLeast A u w₁) (hnot : ¬Met states edges later u w₁)
    (harrow : Arrow states edges u v w₂) : AtLeast A v (w₁ * w₂) := by
  obtain ⟨a, ha, hle⟩ := hmet
  rcases h.met u a ha with ⟨s, hs, hone⟩ | htwo
  · refine (h.two v (a * w₂) (met_of_arrow hs hone harrow fun hm => hnot (hm.mono hle))).mono ?_
    exact mul_le_mul_of_nonneg_right hle (harrow.pos hpos).le
  · exact absurd (htwo.mono hle) hnot

/-- One more seed. -/
lemma Walked.expandSeed (h : Walked states edges later A)
    (hpos : Positive edges) (s : MemoryId) :
    Walked states edges (s :: later) (expandSeed states edges A s) := by
  obtain ⟨new, hnew, hrelaxed⟩ := relaxed_foldl states 2 one_pos (hpos s) A []
  rw [List.append_nil] at hnew
  unfold Associations.expandSeed
  dsimp only
  rw [hnew]
  generalize ((followed edges s).foldl (relax states 1 2) (A, [])).1 = A' at hrelaxed
  have hwaiting : ∀ x ∈ new, Arrow states edges s x.node x.act := by
    intro x hx
    obtain ⟨-, -, e, he, hdst, hlegal, hact⟩ := hrelaxed.waiting x hx
    exact ⟨e, he, hdst, hlegal, hact.trans (one_mul _)⟩
  obtain ⟨hsound, hkept, hmet⟩ :=
    foldl_expandLast states hpos new (fun x hx => (hwaiting x hx).pos hpos) A'
  have hup : ∀ v a, AtLeast A v a → AtLeast (new.foldl (expandLast states edges) A') v a :=
    fun v a hv => hkept v a (hrelaxed.kept v a hv)
  -- where an activation comes from: from before, from an arrow, or from what waited
  have hfrom : ∀ v a, (new.foldl (expandLast states edges) A').lookup v = some a →
      A.lookup v = some a ∨ Arrow states edges s v a ∨
        ∃ x ∈ new, ∃ w, Arrow states edges x.node v w ∧ a = x.act * w := by
    intro v a hv
    rcases hsound v a hv with hv | hx
    · rcases hrelaxed.sound v a hv with hv | ⟨e, he, hdst, hlegal, rfl⟩
      · exact Or.inl hv
      · exact Or.inr (Or.inl ⟨e, he, hdst, hlegal, one_mul _⟩)
    · exact Or.inr (Or.inr hx)
  refine ⟨fun v a hv => ?_, fun v a hv => ?_, fun s' hs' v w hw => ?_, fun v w hw => ?_⟩
  · rcases hfrom v a hv with hv | hone | ⟨x, hx, w, hw, rfl⟩
    · obtain ⟨s', hs', hpath⟩ := h.sound v a hv
      exact ⟨s', List.mem_cons_of_mem _ hs', hpath⟩
    · exact ⟨s, List.mem_cons_self, Or.inl hone⟩
    · exact ⟨s, List.mem_cons_self, Or.inr ⟨le_rfl, x.node, x.act, w, hwaiting x hx, hw, rfl⟩⟩
  · rcases hfrom v a hv with hv | hone | ⟨x, hx, w, hw, rfl⟩
    · rcases h.met v a hv with ⟨s', hs', hone⟩ | htwo
      · exact Or.inl ⟨s', List.mem_cons_of_mem _ hs', hone⟩
      · exact Or.inr (Or.inl htwo)
    · exact Or.inl ⟨s, List.mem_cons_self, hone⟩
    · -- what waits was not met as strongly before
      obtain ⟨-, hnot, -⟩ := hrelaxed.waiting x hx
      exact Or.inr (Or.inr ⟨x.node, x.act, w, hwaiting x hx, hw, le_rfl, fun hm => hnot (h.two _ _ hm)⟩)
  · rcases List.mem_cons.mp hs' with rfl | hs'
    · obtain ⟨e, he, rfl, hlegal, rfl⟩ := hw
      have hthere := hrelaxed.met e he hlegal
      rw [one_mul] at hthere
      exact hkept _ _ hthere
    · exact hup v w (h.one s' hs' v w hw)
  · rcases hw with hw | ⟨u, w₁, w₂, hfirst, hsecond, hle, hnot⟩
    · exact hup v w (h.two v w hw)
    · refine AtLeast.mono ?_ hle
      obtain ⟨e, he, rfl, hlegal, rfl⟩ := hfirst
      have hcase := hrelaxed.waits Nat.one_lt_two e he hlegal
      rw [one_mul] at hcase
      rcases hcase with hthere | ⟨x, hx, hnode, hact⟩
      · exact hup _ _ (h.atLeast hpos hthere hnot hsecond)
      · rw [← hnode] at hsecond
        refine (hmet x hx v w₂ hsecond).mono ?_
        exact mul_le_mul_of_nonneg_right hact (hsecond.pos hpos).le

lemma walked_activations (hpos : Positive edges)
    (seedIds : List MemoryId) {maxHops : ℕ} (hhops : 2 ≤ maxHops) :
    Walked states edges seedIds (activations states edges seedIds maxHops) := by
  rw [activations_two hpos seedIds hhops, List.foldl_reverse]
  induction seedIds with
  | nil =>
    have hempty : ∀ v a, (∅ : Activation).lookup v ≠ some a := by
      intro v a
      rw [Finmap.lookup_empty]
      exact Option.some_ne_none a ∘ Eq.symm
    exact ⟨fun v a hv => absurd hv (hempty v a), fun v a hv => absurd hv (hempty v a),
      fun s hs => absurd hs List.not_mem_nil, fun v w hw => hw.elim⟩
  | cons s ss ih => exact ih.expandSeed hpos s

end Found

/-! ## What is returned -/

section Returned

variable {g : Graph} {seedIds : List MemoryId} {maxHops limit : ℕ}

/-- The memories that are returned are those that paths lead to, each with the activation of the
strongest path, which its score is made of. -/
structure FoundBest (g : Graph) (seedIds : List MemoryId) (maxHops : ℕ)
    (result : List (RecallHit Expanded)) : Prop where
  nodup : (result.map (·.memoryId)).Nodup
  found : ∀ id, (∃ h ∈ result, h.memoryId = id) ↔ legal g.states id = true ∧ g.payloads id ≠ none ∧
    id ∉ seedIds ∧ ∃ a, Reaches g.states g.edges seedIds maxHops id a
  best : ∀ h ∈ result, ∃ a state statusMul,
    (activations g.states g.edges seedIds maxHops).lookup h.memoryId = some a ∧
      IsGreatest {a | Reaches g.states g.edges seedIds maxHops h.memoryId a} a ∧
      g.states h.memoryId = some state ∧ statusMultiplier g.muls state.status = some statusMul ∧
      h.scored.score = a * g.effectiveStrength state * statusMul

/-- Every path of two hops to a memory that may be returned is matched by a path that is as strong: by
one of one hop, or by one whose memories are met. -/
def Unshadowed (g : Graph) (seedIds : List MemoryId) : Prop :=
  ∀ s ∈ seedIds, ∀ b w, b ∉ seedIds → g.payloads b ≠ none → TwoHops g.states g.edges s b w →
    (∃ s ∈ seedIds, ∃ w', Arrow g.states g.edges s b w' ∧ w ≤ w') ∨ Met g.states g.edges seedIds b w

lemma statusMultiplier_isSome (m : StatusMuls) (status : MemoryStatus) :
    (statusMultiplier m status).isSome = recallable status := by
  cases status <;> rfl

/-- What a hit is built of. -/
lemma hitOf_eq_some {x : MemoryId × ℚ} {h : RecallHit Expanded} :
    g.hitOf seedIds x = some h ↔ x.1 ∉ seedIds ∧ ∃ state, g.states x.1 = some state ∧
      state.deleted = false ∧ ∃ statusMul, statusMultiplier g.muls state.status = some statusMul ∧
        ∃ payload, g.payloads x.1 = some payload ∧
          h = ⟨x.1, payload.createdAtMs, payload.kind, payload.realm, decodeText payload.content,
            ⟨x.2 * g.effectiveStrength state * statusMul, g.effectiveStrength state, statusMul⟩⟩ := by
  unfold Graph.hitOf
  by_cases hseed : x.1 ∈ seedIds
  · rw [if_pos hseed]
    exact iff_of_false (by simp) fun hx => hx.1 hseed
  · rw [if_neg hseed, Option.bind_eq_some_iff]
    refine Iff.trans (exists_congr fun state => and_congr_right fun _ => ?_) (and_iff_right hseed).symm
    cases state.deleted with
    | true => exact iff_of_false (by simp) fun hx => by cases hx.1
    | false =>
      rw [if_neg (by simp), Option.bind_eq_some_iff]
      refine Iff.trans (exists_congr fun statusMul => and_congr_right fun _ => ?_)
        (and_iff_right rfl).symm
      rw [Option.map_eq_some_iff]
      exact exists_congr fun payload => and_congr_right fun _ => eq_comm

/-- Activations are those of the strongest paths to the memories that may be returned. -/
structure Exact (g : Graph) (seedIds : List MemoryId) (maxHops : ℕ) (A : Activation) : Prop where
  sound : ∀ v a, A.lookup v = some a → Reaches g.states g.edges seedIds maxHops v a
  complete : ∀ v w, v ∉ seedIds → g.payloads v ≠ none → Reaches g.states g.edges seedIds maxHops v w →
    AtLeast A v w

lemma exact_activations (hpos : Positive g.edges)
    (hhops : maxHops = 1 ∨ maxHops = 2) :
    Exact g seedIds maxHops (activations g.states g.edges seedIds maxHops) ↔
      maxHops = 1 ∨ Unshadowed g seedIds := by
  rcases hhops with rfl | rfl
  · refine iff_of_true ?_ (Or.inl rfl)
    rw [activations_one]
    have hone : ∀ x ∈ seedIds.reverse.map fun id => (⟨id, 1, 1⟩ : Waiting),
        x.node ∈ seedIds ∧ x.act = 1 := by
      intro x hx
      obtain ⟨id, hid, rfl⟩ := List.mem_map.mp hx
      exact ⟨List.mem_reverse.mp hid, rfl⟩
    obtain ⟨hsound, -, hmet⟩ := foldl_expandLast g.states hpos
      (seedIds.reverse.map fun id => (⟨id, 1, 1⟩ : Waiting))
      (fun x hx => (hone x hx).2 ▸ one_pos) ∅
    refine ⟨fun v a hv => ?_, fun v w _ _ hw => ?_⟩
    · rcases hsound v a hv with hempty | ⟨x, hx, w, hw, rfl⟩
      · rw [Finmap.lookup_empty] at hempty
        cases hempty
      · obtain ⟨hnode, hact⟩ := hone x hx
        rw [hact, one_mul]
        exact ⟨x.node, hnode, Or.inl hw⟩
    · obtain ⟨s, hs, hw | ⟨htwo, -⟩⟩ := hw
      · have hthere := hmet ⟨s, 1, 1⟩ (List.mem_map_of_mem (List.mem_reverse.mpr hs)) v w hw
        rwa [one_mul] at hthere
      · omega
  · rw [or_iff_right (by decide)]
    have hwalked : Walked g.states g.edges seedIds _ := walked_activations hpos seedIds (le_refl 2)
    constructor
    · intro hexact s hs b w hseed hpayload htwo
      obtain ⟨a, ha, hle⟩ := hexact.complete b w hseed hpayload ⟨s, hs, Or.inr ⟨le_rfl, htwo⟩⟩
      rcases hwalked.met b a ha with ⟨s', hs', hone⟩ | hmet
      · exact Or.inl ⟨s', hs', a, hone, hle⟩
      · exact Or.inr (hmet.mono hle)
    · intro hclear
      refine ⟨hwalked.sound, fun v w hseed hpayload hw => ?_⟩
      obtain ⟨s, hs, hw | ⟨-, htwo⟩⟩ := hw
      · exact hwalked.one s hs v w hw
      · rcases hclear s hs v w hseed hpayload htwo with ⟨s', hs', w', hone, hle⟩ | hmet
        · exact (hwalked.one s' hs' v w' hone).mono hle
        · exact hwalked.two v w hmet

/-- The hits that are not cut off: those of the memories that were met. -/
lemma mem_hits {order : KeyOrder MemoryId} {A : Activation} (h : RecallHit Expanded) :
    h ∈ ((entries order A).filterMap (g.hitOf seedIds)).insertionSort Graph.before ↔
      ∃ v a, A.lookup v = some a ∧ g.hitOf seedIds (v, a) = some h := by
  rw [(List.perm_insertionSort Graph.before _).mem_iff, List.mem_filterMap]
  exact ⟨fun ⟨x, hx, hh⟩ => ⟨x.1, x.2, mem_entries.mp hx, hh⟩,
    fun ⟨v, a, hv, hh⟩ => ⟨(v, a), mem_entries.mpr hv, hh⟩⟩

/-- A memory has one hit at most. -/
lemma nodup_hits (order : KeyOrder MemoryId) (A : Activation) :
    ((((entries order A).filterMap (g.hitOf seedIds)).insertionSort Graph.before).map
      (·.memoryId)).Nodup := by
  rw [((List.perm_insertionSort Graph.before _).map _).nodup_iff]
  refine (nodup_entries order (m := A)).sublist ?_
  induction entries order A with
  | nil => exact .refl _
  | cons x xs ih =>
    cases hx : g.hitOf seedIds x with
    | none =>
      rw [List.filterMap_cons_none hx]
      exact ih.cons _
    | some h =>
      obtain ⟨-, state, -, -, mul, -, payload, -, rfl⟩ := hitOf_eq_some.mp hx
      rw [List.filterMap_cons_some hx]
      exact ih.cons_cons _

/-- A memory that was met and may be returned has a hit. -/
lemma exists_hit {id : MemoryId} {a : ℚ} (hlegal : legal g.states id = true)
    (hpayload : g.payloads id ≠ none) (hseed : id ∉ seedIds) :
    ∃ h, g.hitOf seedIds (id, a) = some h ∧ h.memoryId = id := by
  unfold legal at hlegal
  cases hstate : g.states id with
  | none =>
    rw [hstate] at hlegal
    cases hlegal
  | some state =>
    rw [hstate] at hlegal
    dsimp only at hlegal
    rw [Bool.and_eq_true, Bool.not_eq_true', ← statusMultiplier_isSome g.muls,
      Option.isSome_iff_exists] at hlegal
    obtain ⟨hdeleted, mul, hmul⟩ := hlegal
    obtain ⟨payload, hpayload⟩ := Option.ne_none_iff_exists'.mp hpayload
    exact ⟨_, hitOf_eq_some.mpr ⟨hseed, state, hstate, hdeleted, mul, hmul, payload, hpayload, rfl⟩, rfl⟩

/-- For every graph with positive weights, every list of seeds and one or two hops, as long as the limit
is not reached: the expansion finds what it should iff it makes one hop, or every path of two hops is
matched by one that is as strong and is met. -/
theorem expand_finds_best_iff (g : Graph) (order : KeyOrder MemoryId) (seedIds : List MemoryId)
    (maxHops limit : ℕ) (hpos : ∀ src es, g.edges src = some es → ∀ e ∈ es, 0 < e.weight)
    (hhops : maxHops = 1 ∨ maxHops = 2)
    (hlimit : (g.expandAssociations order seedIds maxHops limit).length < limit) :
    FoundBest g seedIds maxHops (g.expandAssociations order seedIds maxHops limit) ↔
      maxHops = 1 ∨ Unshadowed g seedIds := by
  have hfollowed : Positive g.edges := by
    intro src e he
    have hmem := List.mem_of_mem_take he
    cases hsrc : g.edges src with
    | none =>
      rw [hsrc] at hmem
      exact absurd hmem List.not_mem_nil
    | some es =>
      rw [hsrc] at hmem
      exact hpos src es hsrc e hmem
  rw [← exact_activations hfollowed hhops]
  unfold Graph.expandAssociations at hlimit ⊢
  have hall : (((entries order (activations g.states g.edges seedIds maxHops)).filterMap
      (g.hitOf seedIds)).insertionSort Graph.before).take limit =
      ((entries order (activations g.states g.edges seedIds maxHops)).filterMap
        (g.hitOf seedIds)).insertionSort Graph.before := by
    rw [List.length_take] at hlimit
    exact List.take_of_length_le (by omega)
  rw [hall]
  constructor
  · intro hbest
    -- what the walk meets are paths, and what paths lead to is returned with the strongest of them
    refine ⟨?_, fun v w hseed hpayload hw => ?_⟩
    · rcases hhops with rfl | rfl
      · exact ((exact_activations hfollowed (Or.inl rfl)).mpr (Or.inl rfl)).sound
      · exact (walked_activations hfollowed seedIds (le_refl 2)).sound
    · have hlegal : legal g.states v = true := by
        obtain ⟨s, -, ⟨e, -, -, hlegal, -⟩ | ⟨-, u, w₁, w₂, -, ⟨e, -, -, hlegal, -⟩, -⟩⟩ := hw
        · exact hlegal
        · exact hlegal
      obtain ⟨h, hh, rfl⟩ := (hbest.found v).mpr ⟨hlegal, hpayload, hseed, w, hw⟩
      obtain ⟨a, state, mul, ha, hgreatest, -⟩ := hbest.best h hh
      exact ⟨a, ha, hgreatest.2 hw⟩
  · intro hexact
    refine ⟨nodup_hits order _, fun id => ⟨?_, ?_⟩, fun h hh => ?_⟩
    · rintro ⟨h, hh, rfl⟩
      obtain ⟨v, a, hv, hhit⟩ := (mem_hits h).mp hh
      obtain ⟨hseed, state, hstate, hdeleted, mul, hmul, payload, hpayload, rfl⟩ :=
        hitOf_eq_some.mp hhit
      refine ⟨?_, by rw [hpayload]; simp, hseed, a, hexact.sound v a hv⟩
      unfold legal
      dsimp only at hstate ⊢
      rw [hstate]
      dsimp only
      rw [hdeleted, ← statusMultiplier_isSome g.muls, hmul]
      rfl
    · rintro ⟨hlegal, hpayload, hseed, a, ha⟩
      obtain ⟨a', ha', -⟩ := hexact.complete id a hseed hpayload ha
      obtain ⟨h, hhit, hid⟩ := exists_hit hlegal hpayload hseed
      exact ⟨h, (mem_hits h).mpr ⟨id, a', ha', hhit⟩, hid⟩
    · obtain ⟨v, a, hv, hhit⟩ := (mem_hits h).mp hh
      obtain ⟨hseed, state, hstate, -, mul, hmul, payload, hpayload, rfl⟩ := hitOf_eq_some.mp hhit
      refine ⟨a, state, mul, hv, ⟨hexact.sound v a hv, fun b hb => ?_⟩, hstate, hmul, rfl⟩
      obtain ⟨a', ha', hle⟩ := hexact.complete v b hseed (by rw [hpayload]; simp) hb
      rw [hv] at ha'
      exact hle.trans (Option.some.inj ha').ge

end Returned

/-! ## A shadowed memory -/

/-- Two seeds, of which the second one meets memory 3 behind memory 4, and the first one meets it at
once, but more weakly. -/
def crossed : Graph where
  states id := some (MemoryState.new id default 0)
  payloads id := some (.ofPut ⟨id, 1, [], 0, 0, "note", "r", [116], "", [], [], none, none, none, "", 0⟩)
  edges src :=
    if src = 1 then some [⟨3, .supports, 1⟩]
    else if src = 2 then some [⟨4, .derivedFrom, 1⟩]
    else if src = 4 then some [⟨3, .derivedFrom, 1⟩]
    else if src = 3 then some [⟨5, .derivedFrom, 1⟩]
    else none
  muls := ⟨1, 1, 1, 1⟩
  effectiveStrength _ := 1

/-- Every memory leads to one other at most. -/
lemma edges_crossed {src : MemoryId} {es : List (AssocEdge ℚ)} (h : crossed.edges src = some es) :
    ∃ e, es = [e] ∧ 0 < e.weight ∧
      (src = 1 ∧ e.dst = 3 ∨ src = 2 ∧ e.dst = 4 ∨ src = 4 ∧ e.dst = 3 ∨ src = 3 ∧ e.dst = 5) := by
  unfold crossed at h
  dsimp only at h
  split_ifs at h with h1 h2 h4 h3
  all_goals exact ⟨_, (Option.some.inj h).symm, by norm_num, by simp [*]⟩

lemma arrow_crossed {a b : MemoryId} {w : ℚ} (h : Arrow crossed.states crossed.edges a b w) :
    a = 1 ∧ b = 3 ∨ a = 2 ∧ b = 4 ∨ a = 4 ∧ b = 3 ∨ a = 3 ∧ b = 5 := by
  obtain ⟨e, he, rfl, -, -⟩ := h
  have hmem := List.mem_of_mem_take he
  cases hes : crossed.edges a with
  | none =>
    rw [hes] at hmem
    exact absurd hmem List.not_mem_nil
  | some es =>
    obtain ⟨e', rfl, -, hcase⟩ := edges_crossed hes
    rw [hes] at hmem
    exact List.mem_singleton.mp hmem ▸ hcase

/-- With the second seed in front, what the first one meets is found in two hops. -/
theorem expand_finds_best_crossed :
    FoundBest crossed [2, 1] 2 (crossed.expandAssociations upwards [2, 1] 2 9) := by
  refine (expand_finds_best_iff crossed upwards [2, 1] 2 9 (fun src es hes e he => ?_) (Or.inr rfl)
    (by decide +kernel)).mpr (Or.inr fun s hs b w _ _ htwo => Or.inr ?_)
  · obtain ⟨e', rfl, hpos, -⟩ := edges_crossed hes
    exact List.mem_singleton.mp he ▸ hpos
  obtain ⟨u, w₁, w₂, hu, hb, rfl⟩ := htwo
  rcases List.mem_pair.mp hs with rfl | rfl
  · refine Or.inr ⟨u, w₁, w₂, hu, hb, le_rfl, ?_⟩
    -- nothing leads from memory 1 to memory 4
    rintro (hfalse | ⟨v, _, _, hv, hvu, -⟩)
    · exact hfalse
    · obtain rfl : u = 4 := by simpa using arrow_crossed hu
      obtain rfl : v = 3 := by simpa using arrow_crossed hv
      exact absurd (arrow_crossed hvu) (by decide)
  · exact Or.inl (Or.inr ⟨u, w₁, w₂, hu, hb, le_rfl, fun hfalse => hfalse⟩)

/-- Memory 5 is two hops from the first seed, and is found only if the seeds come the other way round. -/
theorem shadowed_is_missed :
    (crossed.expandAssociations upwards [1, 2] 2 9).map (·.memoryId) = [4, 3] ∧
      (crossed.expandAssociations upwards [2, 1] 2 9).map (·.memoryId) = [4, 3, 5] := by
  decide +kernel

end ChittaField.Associations
