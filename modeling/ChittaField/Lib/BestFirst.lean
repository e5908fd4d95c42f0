import Mathlib.Data.Finset.Card
import Mathlib.Data.List.Sort

/-!
# Best-first search

A search of a graph keeps the nodes it has seen, the nodes it has yet to expand and the best nodes it
has found.  It expands the best candidate, and stops where that is worse than all that is kept.

Whatever the scores say, a search stays where the edges lead (`mem_search`), finds no node twice
(`nodup_search`), and ends (`step_run`).  A search that may keep all that can be reached finds all of
it (`mem_search_iff`).
-/

namespace ChittaField.BestFirst

variable {α S : Type*}

/-! ## Heaps -/

/-- How entries of heaps are compared, and how scores are. -/
structure Ranking (α S : Type*) where
  /-- An entry leaves a heap before another one. -/
  before : S × α → S × α → Bool
  neg : S → S
  worse : S → S → Bool

section Heaps

variable (r : Ranking α S) (ef : ℕ)

/-- Put an entry into a heap. -/
def push (x : S × α) (heap : List (S × α)) : List (S × α) :=
  heap.orderedInsert (fun a b => r.before a b = true) x

/-- Pop entries while there are more than `ef`. -/
def trim (heap : List (S × α)) : List (S × α) := heap.drop (heap.length - ef)

variable {r ef} {score : α → Option S}

lemma mem_push {x y : S × α} {heap : List (S × α)} : y ∈ push r x heap ↔ y = x ∨ y ∈ heap :=
  List.mem_orderedInsert _

lemma perm_push (x : S × α) (heap : List (S × α)) : (push r x heap).Perm (x :: heap) :=
  List.perm_orderedInsert _ x heap

lemma length_push (x : S × α) (heap : List (S × α)) : (push r x heap).length = heap.length + 1 :=
  List.orderedInsert_length _ heap x

lemma perm_foldr_push (xs : List (S × α)) : (xs.foldr (push r) []).Perm xs := by
  induction xs with
  | nil => exact List.Perm.refl _
  | cons x xs ih => exact (perm_push x _).trans (ih.cons x)

lemma mem_of_mem_trim {x : S × α} {heap : List (S × α)} (h : x ∈ trim ef heap) : x ∈ heap :=
  List.mem_of_mem_drop h

lemma mem_scored {entries : List α} {f : α → S → S × α} (hf : ∀ x s, (f x s).2 = x) {p : S × α}
    (h : p ∈ entries.filterMap fun x => (score x).map (f x)) :
    p.2 ∈ entries ∧ (score p.2).isSome = true := by
  obtain ⟨x, hx, hp⟩ := List.mem_filterMap.mp h
  obtain ⟨s, hs, rfl⟩ := Option.map_eq_some_iff.mp hp
  rw [hf x s]
  exact ⟨hx, by rw [hs]; rfl⟩

lemma nodup_scored {entries : List α} {f : α → S → S × α} (hf : ∀ x s, (f x s).2 = x)
    (h : entries.Nodup) :
    ((entries.filterMap fun x => (score x).map (f x)).map (·.2)).Nodup := by
  induction entries with
  | nil => exact List.nodup_nil
  | cons x entries ih =>
    obtain ⟨hx, hentries⟩ := List.nodup_cons.mp h
    rw [List.filterMap_cons]
    cases hs : score x with
    | none => exact ih hentries
    | some s =>
      refine List.nodup_cons.mpr ⟨fun hmem => ?_, ih hentries⟩
      obtain ⟨p, hp, heq⟩ := List.mem_map.mp hmem
      have hxp : p.2 = x := heq.trans (hf x s)
      exact hx (hxp ▸ (mem_scored hf hp).1)

end Heaps

/-! ## Searching -/

/-- What a search keeps; the heaps with the greatest entries first.  Found nodes have their scores
negated. -/
structure Beam (α S : Type*) where
  visited : Finset α
  candidates : List (S × α)
  found : List (S × α)

variable [DecidableEq α] (r : Ranking α S) (score : α → Option S) (next : α → List α) (ef : ℕ)

/-- Start from some nodes. -/
def start (entries : List α) : Beam α S where
  visited := entries.toFinset
  candidates := (entries.filterMap fun x => (score x).map (·, x)).foldr (push r) []
  found := (entries.filterMap fun x => (score x).map fun s => (r.neg s, x)).foldr (push r) []

/-- Look at a neighbour. -/
def look (b : Beam α S) (y : α) : Beam α S :=
  if y ∈ b.visited then b
  else
    match score y with
    | none => { b with visited := insert y b.visited }
    | some s => ⟨insert y b.visited, push r (s, y) b.candidates, trim ef (push r (r.neg s, y) b.found)⟩

/-- A candidate is worse than all that was found. -/
def isOver (b : Beam α S) (s : S) : Bool :=
  ef ≤ b.found.length && b.found.head?.any fun worst => r.worse s (r.neg worst.1)

/-- Expand the best candidate, unless the search is over. -/
def step (b : Beam α S) : Option (Beam α S) :=
  match b.candidates with
  | [] => none
  | (s, x) :: rest =>
    if isOver r ef b s then none
    else some ((next x).foldl (look r score ef) { b with candidates := rest })

/-- Search, at most so many steps. -/
def run : ℕ → Beam α S → Beam α S
  | 0, b => b
  | n + 1, b =>
    match step r score next ef b with
    | none => b
    | some b' => run n b'

/-- The nodes that a search finds. -/
def search (steps : ℕ) (entries : List α) : List α :=
  (run r score next ef steps (start r score entries)).found.map (·.2)

variable {r score next ef}

/-! ## What is found -/

/-- The nodes in the heaps were visited, those that were found have scores and were found once. -/
structure Sound (score : α → Option S) (inside : α → Prop) (b : Beam α S) : Prop where
  visited : ∀ x ∈ b.visited, inside x
  candidates : ∀ p ∈ b.candidates, p.2 ∈ b.visited
  found : ∀ p ∈ b.found, p.2 ∈ b.visited ∧ (score p.2).isSome = true
  once : (b.found.map (·.2)).Nodup

variable {inside : α → Prop}

lemma sound_start {entries : List α} (hinside : ∀ x ∈ entries, inside x) (hnodup : entries.Nodup) :
    Sound score inside (start r score entries) where
  visited := fun x hx => hinside x (List.mem_toFinset.mp hx)
  candidates := fun p hp =>
    List.mem_toFinset.mpr (mem_scored (fun _ _ => rfl) ((perm_foldr_push _).mem_iff.mp hp)).1
  found := fun p hp => by
    obtain ⟨hmem, hscore⟩ := mem_scored (fun _ _ => rfl) ((perm_foldr_push _).mem_iff.mp hp)
    exact ⟨List.mem_toFinset.mpr hmem, hscore⟩
  once := ((perm_foldr_push _).map _).nodup_iff.mpr (nodup_scored (fun _ _ => rfl) hnodup)

lemma Sound.look {b : Beam α S} (h : Sound score inside b) {y : α} (hy : inside y) :
    Sound score inside (look r score ef b y) := by
  have hvisited : ∀ x ∈ insert y b.visited, inside x :=
    (Finset.forall_mem_insert ..).mpr ⟨hy, h.visited⟩
  unfold BestFirst.look
  split_ifs with hseen
  · exact h
  · split
    · exact ⟨hvisited, fun p hp => Finset.mem_insert_of_mem (h.candidates p hp),
        fun p hp => ⟨Finset.mem_insert_of_mem (h.found p hp).1, (h.found p hp).2⟩, h.once⟩
    · rename_i s hs
      refine ⟨hvisited, fun p hp => ?_, fun p hp => ?_, ?_⟩
      · rcases mem_push.mp hp with rfl | hp
        · exact Finset.mem_insert_self _ _
        · exact Finset.mem_insert_of_mem (h.candidates p hp)
      · rcases mem_push.mp (mem_of_mem_trim hp) with rfl | hp
        · exact ⟨Finset.mem_insert_self _ _, by rw [hs]; rfl⟩
        · exact ⟨Finset.mem_insert_of_mem (h.found p hp).1, (h.found p hp).2⟩
      · have hfresh : y ∉ b.found.map (·.2) := by
          intro hmem
          obtain ⟨p, hp, rfl⟩ := List.mem_map.mp hmem
          exact hseen (h.found p hp).1
        have hpush : ((push r (r.neg s, y) b.found).map (·.2)).Nodup :=
          ((perm_push _ _).map _).nodup_iff.mpr (List.nodup_cons.mpr ⟨hfresh, h.once⟩)
        exact hpush.sublist ((List.drop_sublist _ _).map _)

lemma Sound.foldl_look {ys : List α} {b : Beam α S} (h : Sound score inside b)
    (hys : ∀ y ∈ ys, inside y) : Sound score inside (ys.foldl (BestFirst.look r score ef) b) :=
  List.foldlRecOn ys _ h fun _ h y hy => h.look (hys y hy)

lemma Sound.step {b b' : Beam α S} (h : Sound score inside b)
    (hclosed : ∀ x, inside x → ∀ y ∈ next x, inside y) (hstep : step r score next ef b = some b') :
    Sound score inside b' := by
  unfold BestFirst.step at hstep
  split at hstep
  · exact absurd hstep (by simp)
  · rename_i s x rest hcandidates
    split_ifs at hstep
    obtain rfl := Option.some.inj hstep
    have hx : inside x :=
      h.visited x (h.candidates (s, x) (by rw [hcandidates]; exact List.mem_cons_self))
    refine Sound.foldl_look ⟨h.visited, fun p hp => ?_, h.found, h.once⟩ (hclosed x hx)
    exact h.candidates p (by rw [hcandidates]; exact List.mem_cons_of_mem _ hp)

lemma Sound.run {n : ℕ} {b : Beam α S} (h : Sound score inside b)
    (hclosed : ∀ x, inside x → ∀ y ∈ next x, inside y) :
    Sound score inside (run r score next ef n b) := by
  induction n generalizing b with
  | zero => exact h
  | succ n ih =>
    unfold BestFirst.run
    split
    · exact h
    · rename_i b' hstep
      exact ih (h.step hclosed hstep)

variable {steps : ℕ} {entries : List α}

/-- A search stays where the edges lead. -/
theorem mem_search (hclosed : ∀ x, inside x → ∀ y ∈ next x, inside y)
    (hinside : ∀ x ∈ entries, inside x) (hnodup : entries.Nodup) {x : α}
    (h : x ∈ search r score next ef steps entries) : inside x ∧ (score x).isSome = true := by
  have hsound : Sound score inside (run r score next ef steps (start r score entries)) :=
    (sound_start hinside hnodup).run hclosed
  obtain ⟨p, hp, rfl⟩ := List.mem_map.mp h
  obtain ⟨hvisited, hscore⟩ := hsound.found p hp
  exact ⟨hsound.visited _ hvisited, hscore⟩

/-- A search finds no node twice. -/
theorem nodup_search (hnodup : entries.Nodup) : (search r score next ef steps entries).Nodup := by
  have hstart : Sound score (fun _ => True) (start r score entries) :=
    sound_start (fun _ _ => trivial) hnodup
  have hrun : Sound score (fun _ => True) (run r score next ef steps (start r score entries)) :=
    hstart.run fun _ _ _ _ => trivial
  exact hrun.once

/-! ## The end of a search -/

/-- Every neighbour that is looked at adds one candidate at most, and then it was visited. -/
lemma measure_foldl_look {nodes : Finset α} {ys : List α} (hys : ∀ y ∈ ys, y ∈ nodes)
    (r : Ranking α S) (score : α → Option S) (ef : ℕ) (b : Beam α S) :
    (ys.foldl (look r score ef) b).candidates.length +
        (nodes \ (ys.foldl (look r score ef) b).visited).card ≤
      b.candidates.length + (nodes \ b.visited).card := by
  induction ys generalizing b with
  | nil => exact le_refl _
  | cons y ys ih =>
    obtain ⟨hy, hys⟩ := List.forall_mem_cons.mp hys
    refine (ih hys (look r score ef b y)).trans ?_
    unfold look
    split_ifs with hseen
    · exact le_refl _
    · have hfresh : y ∈ nodes \ b.visited := Finset.mem_sdiff.mpr ⟨hy, hseen⟩
      have hinsert : nodes \ insert y b.visited = (nodes \ b.visited).erase y := by
        rw [Finset.sdiff_insert]
      have hcard := Finset.card_erase_add_one hfresh
      split
      · rw [hinsert]
        dsimp only
        omega
      · rw [hinsert]
        dsimp only
        rw [length_push]
        omega

/-- With steps for all candidates and all nodes that were not visited, a search comes to its end. -/
theorem step_run {nodes : Finset α} (hnodes : ∀ x, ∀ y ∈ next x, y ∈ nodes) {n : ℕ}
    {b : Beam α S} (h : b.candidates.length + (nodes \ b.visited).card ≤ n) :
    step r score next ef (run r score next ef n b) = none := by
  induction n generalizing b with
  | zero =>
    have hempty : b.candidates = [] := List.eq_nil_of_length_eq_zero (by omega)
    rw [run, step, hempty]
  | succ n ih =>
    unfold run
    split
    · assumption
    · rename_i b' hstep
      refine ih ?_
      unfold step at hstep
      split at hstep
      · exact absurd hstep (by simp)
      · rename_i s x rest hcandidates
        split_ifs at hstep
        obtain rfl := Option.some.inj hstep
        have hmeasure := measure_foldl_look (hnodes x) r score ef { b with candidates := rest }
        rw [hcandidates, List.length_cons] at h
        dsimp only at hmeasure
        omega

/-! ## Wide searches -/

/-- A node with a score that is an entry, or that an edge leads to from such a node. -/
inductive Reached (score : α → Option S) (next : α → List α) (entries : List α) : α → Prop
  | entry {x : α} (hx : x ∈ entries) (hscore : (score x).isSome = true) : Reached score next entries x
  | edge {x y : α} (hx : Reached score next entries x) (hy : y ∈ next x)
      (hscore : (score y).isSome = true) : Reached score next entries y

omit [DecidableEq α] in
lemma Reached.scored {score : α → Option S} {next : α → List α} {entries : List α} {x : α}
    (h : Reached score next entries x) : (score x).isSome = true := by
  cases h with
  | entry _ hscore => exact hscore
  | edge _ _ hscore => exact hscore

/-- What a search keeps while it drops nothing: the heaps hold nodes that are reached, every node that
was visited and has a score is found, and so are its neighbours visited, unless it is a candidate or
the node that is being expanded. -/
structure Covers (score : α → Option S) (next : α → List α) (entries : List α) (current : Option α)
    (b : Beam α S) : Prop where
  candidates : ∀ p ∈ b.candidates, Reached score next entries p.2
  reached : ∀ p ∈ b.found, Reached score next entries p.2
  visited : ∀ p ∈ b.found, p.2 ∈ b.visited
  once : (b.found.map (·.2)).Nodup
  found : ∀ x ∈ b.visited, (score x).isSome = true → x ∈ b.found.map (·.2)
  closed : ∀ x ∈ b.found.map (·.2),
    x ∈ b.candidates.map (·.2) ∨ current = some x ∨ ∀ y ∈ next x, y ∈ b.visited

variable {b b' : Beam α S} {current : Option α} {nodes : Finset α}

lemma covers_start (hnodup : entries.Nodup) :
    Covers score next entries none (start r score entries) where
  candidates p hp := by
    obtain ⟨hmem, hscore⟩ := mem_scored (fun _ _ => rfl) ((perm_foldr_push _).mem_iff.mp hp)
    exact .entry hmem hscore
  reached p hp := by
    obtain ⟨hmem, hscore⟩ := mem_scored (fun _ _ => rfl) ((perm_foldr_push _).mem_iff.mp hp)
    exact .entry hmem hscore
  visited p hp := List.mem_toFinset.mpr
    (mem_scored (fun _ _ => rfl) ((perm_foldr_push _).mem_iff.mp hp)).1
  once := ((perm_foldr_push _).map _).nodup_iff.mpr (nodup_scored (fun _ _ => rfl) hnodup)
  found x hx hscore := by
    obtain ⟨s, hs⟩ := Option.isSome_iff_exists.mp hscore
    refine List.mem_map.mpr ⟨(r.neg s, x), (perm_foldr_push _).mem_iff.mpr ?_, rfl⟩
    exact List.mem_filterMap.mpr ⟨x, List.mem_toFinset.mp hx, by rw [hs]; rfl⟩
  closed x hx := by
    obtain ⟨p, hp, rfl⟩ := List.mem_map.mp hx
    obtain ⟨hmem, hscore⟩ := mem_scored (fun _ _ => rfl) ((perm_foldr_push _).mem_iff.mp hp)
    obtain ⟨s, hs⟩ := Option.isSome_iff_exists.mp hscore
    refine Or.inl (List.mem_map.mpr ⟨(s, p.2), (perm_foldr_push _).mem_iff.mpr ?_, rfl⟩)
    exact List.mem_filterMap.mpr ⟨p.2, hmem, by rw [hs]; rfl⟩

/-- What is found once are no more nodes than there are to be reached. -/
lemma length_le_of_reached {found : List (S × α)} (honce : (found.map (·.2)).Nodup)
    (hfound : ∀ p ∈ found, p.2 ∈ nodes) : found.length ≤ nodes.card := by
  have hcard := List.toFinset_card_of_nodup honce
  rw [List.length_map] at hcard
  rw [← hcard]
  refine Finset.card_le_card fun x hx => ?_
  obtain ⟨p, hp, rfl⟩ := List.mem_map.mp (List.mem_toFinset.mp hx)
  exact hfound p hp

/-- A neighbour of the node that is being expanded is looked at, and nothing is dropped. -/
lemma Covers.look (h : Covers score next entries current b)
    (hnodes : ∀ x, Reached score next entries x → x ∈ nodes) (hwide : nodes.card ≤ ef) {y : α}
    (hy : (score y).isSome = true → Reached score next entries y) :
    Covers score next entries current (look r score ef b y) ∧
      y ∈ (BestFirst.look r score ef b y).visited ∧
        b.visited ⊆ (BestFirst.look r score ef b y).visited := by
  unfold BestFirst.look
  split_ifs with hseen
  · exact ⟨h, hseen, Finset.Subset.refl _⟩
  cases hs : score y with
  | none =>
    refine ⟨⟨h.candidates, h.reached,
      fun p hp => Finset.mem_insert_of_mem (h.visited p hp), h.once, fun x hx hscore => ?_,
      fun x hx => ?_⟩, Finset.mem_insert_self _ _, Finset.subset_insert _ _⟩
    · rcases Finset.mem_insert.mp hx with rfl | hx
      · rw [hs] at hscore
        exact absurd hscore Bool.false_ne_true
      · exact h.found x hx hscore
    · exact (h.closed x hx).imp_right (Or.imp_right fun hall z hz =>
        Finset.mem_insert_of_mem (hall z hz))
  | some s =>
    have hreached := hy (by rw [hs]; rfl)
    have hfresh : y ∉ b.found.map (·.2) := by
      intro hmem
      obtain ⟨p, hp, rfl⟩ := List.mem_map.mp hmem
      exact hseen (h.visited p hp)
    have hperm := perm_push (r := r) (r.neg s, y) b.found
    have honce : ((push r (r.neg s, y) b.found).map (·.2)).Nodup :=
      (hperm.map _).nodup_iff.mpr (List.nodup_cons.mpr ⟨hfresh, h.once⟩)
    -- what is found with this node are nodes that are reached, so that nothing is trimmed
    have hkeep : trim ef (push r (r.neg s, y) b.found) = push r (r.neg s, y) b.found := by
      have hle : (push r (r.neg s, y) b.found).length ≤ nodes.card :=
        length_le_of_reached honce fun p hp => hnodes p.2 (by
        rcases mem_push.mp hp with rfl | hp
        · exact hreached
        · exact h.reached p hp)
      rw [trim, Nat.sub_eq_zero_of_le (hle.trans hwide), List.drop_zero]
    dsimp only
    rw [hkeep]
    have hmem : ∀ {x}, x ∈ (push r (r.neg s, y) b.found).map (·.2) ↔ x = y ∨ x ∈ b.found.map (·.2) := by
      intro x
      rw [(hperm.map _).mem_iff, List.map_cons, List.mem_cons]
    refine ⟨⟨fun p hp => ?_, fun p hp => ?_, fun p hp => ?_, honce, fun x hx hscore => ?_,
      fun x hx => ?_⟩, Finset.mem_insert_self _ _,
      Finset.subset_insert _ _⟩
    · rcases mem_push.mp hp with rfl | hp
      · exact hreached
      · exact h.candidates p hp
    · rcases mem_push.mp hp with rfl | hp
      · exact hreached
      · exact h.reached p hp
    · rcases mem_push.mp hp with rfl | hp
      · exact Finset.mem_insert_self _ _
      · exact Finset.mem_insert_of_mem (h.visited p hp)
    · rcases Finset.mem_insert.mp hx with rfl | hx
      · exact hmem.mpr (Or.inl rfl)
      · exact hmem.mpr (Or.inr (h.found x hx hscore))
    · have hcandidates : ∀ {z}, z = y ∨ z ∈ b.candidates.map (·.2) →
          z ∈ (push r (s, y) b.candidates).map (·.2) := by
        intro z hz
        rw [((perm_push (r := r) (s, y) b.candidates).map _).mem_iff, List.map_cons, List.mem_cons]
        exact hz
      rcases hmem.mp hx with rfl | hx
      · exact Or.inl (hcandidates (Or.inl rfl))
      · rcases h.closed x hx with hc | hc | hall
        · exact Or.inl (hcandidates (Or.inr hc))
        · exact Or.inr (Or.inl hc)
        · exact Or.inr (Or.inr fun z hz => Finset.mem_insert_of_mem (hall z hz))

lemma Covers.foldl_look {ys : List α} (h : Covers score next entries current b)
    (hnodes : ∀ x, Reached score next entries x → x ∈ nodes) (hwide : nodes.card ≤ ef)
    (hys : ∀ y ∈ ys, (score y).isSome = true → Reached score next entries y) :
    Covers score next entries current (ys.foldl (BestFirst.look r score ef) b) ∧
      (∀ y ∈ ys, y ∈ (ys.foldl (BestFirst.look r score ef) b).visited) ∧
        b.visited ⊆ (ys.foldl (BestFirst.look r score ef) b).visited := by
  induction ys generalizing b with
  | nil => exact ⟨h, List.forall_mem_nil _, Finset.Subset.refl _⟩
  | cons y ys ih =>
    obtain ⟨hy, hys⟩ := List.forall_mem_cons.mp hys
    obtain ⟨hlook, hmem, hsub⟩ := h.look (r := r) hnodes hwide hy
    obtain ⟨hfold, hall, hrest⟩ := ih hlook hys
    exact ⟨hfold, List.forall_mem_cons.mpr ⟨hrest hmem, hall⟩, hsub.trans hrest⟩

lemma Covers.step (h : Covers score next entries none b)
    (hnodes : ∀ x, Reached score next entries x → x ∈ nodes) (hwide : nodes.card ≤ ef)
    (hstep : step r score next ef b = some b') :
    Covers score next entries none b' ∧ b.visited ⊆ b'.visited := by
  unfold BestFirst.step at hstep
  split at hstep
  · exact absurd hstep (by simp)
  · rename_i s x rest hcandidates
    split_ifs at hstep
    obtain rfl := Option.some.inj hstep
    have hx : Reached score next entries x :=
      h.candidates (s, x) (by rw [hcandidates]; exact List.mem_cons_self)
    have hpopped : Covers score next entries (some x) { b with candidates := rest } := by
      refine ⟨fun p hp => h.candidates p ?_, h.reached, h.visited, h.once, h.found,
        fun z hz => ?_⟩
      · rw [hcandidates]
        exact List.mem_cons_of_mem _ hp
      · rcases h.closed z hz with hc | hc | hall
        · rw [hcandidates, List.map_cons, List.mem_cons] at hc
          rcases hc with rfl | hc
          · exact Or.inr (Or.inl rfl)
          · exact Or.inl hc
        · exact absurd hc (by simp)
        · exact Or.inr (Or.inr hall)
    obtain ⟨hfold, hall, hsub⟩ := hpopped.foldl_look (r := r) hnodes hwide fun y hy => hx.edge hy
    refine ⟨⟨hfold.candidates, hfold.reached, hfold.visited, hfold.once, hfold.found,
      fun z hz => ?_⟩, hsub⟩
    rcases hfold.closed z hz with hc | hc | hclosed
    · exact Or.inl hc
    · obtain rfl := Option.some.inj hc
      exact Or.inr (Or.inr hall)
    · exact Or.inr (Or.inr hclosed)

lemma Covers.run {n : ℕ} (h : Covers score next entries none b)
    (hnodes : ∀ x, Reached score next entries x → x ∈ nodes) (hwide : nodes.card ≤ ef) :
    Covers score next entries none (run r score next ef n b) ∧
      b.visited ⊆ (BestFirst.run r score next ef n b).visited := by
  induction n generalizing b with
  | zero => exact ⟨h, Finset.Subset.refl _⟩
  | succ n ih =>
    unfold BestFirst.run
    split
    · exact ⟨h, Finset.Subset.refl _⟩
    · rename_i b' hstep
      obtain ⟨hnext, hsub⟩ := h.step hnodes hwide hstep
      obtain ⟨hrun, hrest⟩ := ih hnext
      exact ⟨hrun, hsub.trans hrest⟩

/-- At the end of a search that dropped nothing all is found. -/
lemma Covers.done (h : Covers score next entries none b) (hseeds : ∀ x ∈ entries, x ∈ b.visited)
    (hnodes : ∀ x, x ∈ nodes ↔ Reached score next entries x) (hwide : nodes.card ≤ ef)
    (hend : BestFirst.step r score next ef b = none) (x : α) :
    x ∈ b.found.map (·.2) ↔ x ∈ nodes := by
  have hsub : (b.found.map (·.2)).toFinset ⊆ nodes := by
    intro z hz
    obtain ⟨p, hp, rfl⟩ := List.mem_map.mp (List.mem_toFinset.mp hz)
    exact (hnodes _).mpr (h.reached p hp)
  refine ⟨fun hx => hsub (List.mem_toFinset.mpr hx), fun hx => ?_⟩
  unfold BestFirst.step at hend
  split at hend
  · rename_i hempty
    have hvisited : ∀ z, Reached score next entries z → z ∈ b.visited := by
      intro z hz
      induction hz with
      | entry hz _ => exact hseeds _ hz
      | edge hz hy _ ih =>
        rcases h.closed _ (h.found _ ih hz.scored) with hc | hc | hall
        · rw [hempty] at hc
          exact absurd hc List.not_mem_nil
        · exact absurd hc (by simp)
        · exact hall _ hy
    have hreached := (hnodes x).mp hx
    exact h.found x (hvisited x hreached) hreached.scored
  · -- the search is over because as much is found as there is
    rename_i s y rest hcandidates
    split_ifs at hend with hover
    simp only [isOver, Bool.and_eq_true, decide_eq_true_eq] at hover
    have hcard := List.toFinset_card_of_nodup h.once
    rw [List.length_map] at hcard
    have heq := Finset.eq_of_subset_of_card_le hsub (by omega)
    exact List.mem_toFinset.mp (heq ▸ hx)

/-- **A wide search is exhaustive.**  A search that may keep as many nodes as there are to be reached
finds exactly these, whatever the scores say. -/
theorem mem_search_iff (hnodup : entries.Nodup)
    (hnodes : ∀ x, x ∈ nodes ↔ Reached score next entries x) (hwide : nodes.card ≤ ef)
    (hend : step r score next ef (run r score next ef steps (start r score entries)) = none) (x : α) :
    x ∈ search r score next ef steps entries ↔ x ∈ nodes := by
  obtain ⟨hrun, hsub⟩ : Covers score next entries none (run r score next ef steps (start r score entries)) ∧
      _ := (covers_start hnodup).run (fun z hz => (hnodes z).mpr hz) hwide
  exact hrun.done (fun z hz => hsub (List.mem_toFinset.mpr hz)) hnodes hwide hend x

end ChittaField.BestFirst
