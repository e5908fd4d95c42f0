import ChittaField.Lib.HashMaps
import ChittaField.Organs.Claims

/-!
# Contradictions

When a memory is stored its atoms are compared with those of all memories that share a key or a subject
with it, and whoever has a pair of atoms with a high score is raised.

The prefilter drops none, and the score is symmetric: `detection_exact` says that the raised pairs are
those whose best atoms oppose each other, each once, whatever the order in which memories are stored.
-/

namespace ChittaField.Claims

open HashMaps
open Spans (Text Unicode)

inductive CandidateStatus
  | open_ | confirmed | rejected | resolved | softRetired
deriving DecidableEq

structure ContradictionCandidate where
  id : ℕ
  memoryA : ℕ
  memoryB : ℕ
  score : ℚ
  sameScore : ℚ
  oppositionScore : ℚ
  reason : String
  status : CandidateStatus
  createdAtMs : ℤ
deriving DecidableEq

structure ContradictionIndex where
  candidates : List ContradictionCandidate
  nextId : ℕ
  /-- The candidates of a memory. -/
  byMemory : Finmap fun _ : ℕ => List ℕ
  /-- The memories with an atom of a key. -/
  byClaimKey : Finmap fun _ : ℕ => List ℕ
  atomStore : Finmap fun _ : ℕ => List ClaimAtom

/-- A memory that is stored, and the orders in which maps and sets are walked then. -/
structure Stored where
  memoryId : ℕ
  content : Bytes
  realm : Text
  ts : ℤ
  storeOrder : KeyOrder ℕ
  candidateOrder : KeyOrder ℕ

/-- The score from which on a pair is raised. -/
def threshold : ℚ := 65 / 100

namespace ContradictionIndex

def new : ContradictionIndex := ⟨[], 0, ∅, ∅, ∅⟩

def registerAtoms (idx : ContradictionIndex) (memoryId : ℕ) (atoms : List ClaimAtom) :
    ContradictionIndex :=
  { idx with
    byClaimKey := pushAll idx.byClaimKey (atoms.map fun a => (a.claimKeyHash, memoryId))
    atomStore := idx.atomStore.insert memoryId atoms }

/-- Add the memories that share the key or the subject of an atom. -/
def sweep (idx : ContradictionIndex) (storeOrder : KeyOrder ℕ) (memoryId : ℕ) (ids : Finset ℕ)
    (atom : ClaimAtom) : Finset ℕ :=
  let ids := ids ∪ (((idx.byClaimKey.lookup atom.claimKeyHash).getD []).filter (· ≠ memoryId)).toFinset
  ((entries storeOrder idx.atomStore).flatMap (·.2)).foldl (fun ids existing =>
    if existing.memoryId ≠ memoryId ∧ existing.subject = atom.subject ∧ existing.memoryId ∉ ids
    then insert existing.memoryId ids else ids) ids

/-- The memories that share a key or a subject with some atoms. -/
def candidateIds (idx : ContradictionIndex) (storeOrder : KeyOrder ℕ) (memoryId : ℕ)
    (newAtoms : List ClaimAtom) : Finset ℕ :=
  newAtoms.foldl (idx.sweep storeOrder memoryId) ∅

/-- Two memories are a candidate already. -/
def already (idx : ContradictionIndex) (memoryId peerId : ℕ) : Bool :=
  ((idx.byMemory.lookup memoryId).map fun ids => ids.any fun cid =>
    ((idx.candidates.find? (·.id = cid)).map fun c =>
      (c.memoryA = peerId ∧ c.memoryB = memoryId ∨ c.memoryB = peerId ∧ c.memoryA = memoryId : Bool)).getD
      false).getD false

/-- Raise a candidate. -/
def raise (idx : ContradictionIndex) (memoryId peerId : ℕ) (best : Score) (ts : ℤ) :
    ContradictionIndex × ContradictionCandidate :=
  let c : ContradictionCandidate := ⟨idx.nextId, peerId, memoryId, best.total, best.sameScore,
    best.oppositionScore, best.reason, .open_, ts⟩
  ({ idx with
    candidates := idx.candidates ++ [c]
    nextId := idx.nextId + 1
    byMemory := pushAll idx.byMemory [(memoryId, idx.nextId), (peerId, idx.nextId)] }, c)

/-- Compare a memory with another one. -/
def comparePeer (U : Unicode) (memoryId : ℕ) (ts : ℤ) (newAtoms : List ClaimAtom)
    (acc : ContradictionIndex × List ContradictionCandidate) (peerId : ℕ) :
    ContradictionIndex × List ContradictionCandidate :=
  match acc.1.atomStore.lookup peerId with
  | none => acc
  | some peerAtoms =>
    let best := bestPair U newAtoms peerAtoms
    if threshold ≤ best.total ∧ acc.1.already memoryId peerId = false then
      let raised := acc.1.raise memoryId peerId best ts
      (raised.1, acc.2 ++ [raised.2])
    else acc

/-- Raise the candidates of a memory that is stored, and register its atoms. -/
def detectForNewMemory (U : Unicode) (hash : Text → ℕ) (idx : ContradictionIndex) (p : Stored) :
    ContradictionIndex × List ContradictionCandidate :=
  let newAtoms := parseClaimAtoms U hash p.memoryId p.realm p.content
  if newAtoms = [] then (idx, [])
  else
    let ids := p.candidateOrder.list (idx.candidateIds p.storeOrder p.memoryId newAtoms)
    let out := ids.foldl (comparePeer U p.memoryId p.ts newAtoms) (idx, [])
    (out.1.registerAtoms p.memoryId newAtoms, out.2)

/-- Store memories one by one; the index, and all that was raised. -/
def detectAll (U : Unicode) (hash : Text → ℕ) (memories : List Stored) :
    ContradictionIndex × List ContradictionCandidate :=
  memories.foldl (fun acc p =>
    let out := detectForNewMemory U hash acc.1 p
    (out.1, acc.2 ++ out.2)) (new, [])

/-! ## What is registered -/

section Detection

variable (U : Unicode) (hash : Text → ℕ)

def atomsOf (p : Stored) : List ClaimAtom := parseClaimAtoms U hash p.memoryId p.realm p.content

/-- Two memories oppose each other: their best atoms have a score that is high enough. -/
def Opposed (p q : Stored) : Prop :=
  ∃ a ∈ atomsOf U hash p, ∃ b ∈ atomsOf U hash q, threshold ≤ (scoreContradiction U a b).total

/-- The index of some memories. -/
structure Registered (idx : ContradictionIndex) (done : List Stored) : Prop where
  stored : ∀ p ∈ done, atomsOf U hash p ≠ [] → idx.atomStore.lookup p.memoryId = some (atomsOf U hash p)
  storedOnly : ∀ m as, idx.atomStore.lookup m = some as → ∃ p ∈ done, p.memoryId = m ∧ as = atomsOf U hash p
  keyed : ∀ h m, m ∈ (idx.byClaimKey.lookup h).getD [] ↔
    ∃ p ∈ done, p.memoryId = m ∧ ∃ a ∈ atomsOf U hash p, a.claimKeyHash = h
  mentioned : ∀ c ∈ idx.candidates, c.memoryA ∈ done.map (·.memoryId) ∧ c.memoryB ∈ done.map (·.memoryId)

variable {U hash} {idx : ContradictionIndex} {done : List Stored} {memoryId m : ℕ} {newAtoms : List ClaimAtom}
  {p q : Stored}

lemma threshold_pos : 0 < threshold := by
  unfold threshold
  norm_num

lemma opposed_comm : Opposed U hash p q ↔ Opposed U hash q p := by
  have hrooted : ∀ p, ∀ a ∈ atomsOf U hash p, a.Rooted := fun p a ha => (rooted_of_mem ha).1
  unfold Opposed
  rw [← le_bestPair threshold_pos, ← le_bestPair threshold_pos]
  exact le_bestPair_comm threshold_pos (hrooted p) (hrooted q)

lemma registered_new : Registered U hash new [] where
  stored p hp := absurd hp List.not_mem_nil
  storedOnly m as h := by
    rw [new, Finmap.lookup_empty] at h
    cases h
  keyed h m := by simp [new]
  mentioned c hc := absurd hc List.not_mem_nil

/-! ## The prefilter -/

/-- A memory shares the key or the subject of an atom. -/
def Shares (idx : ContradictionIndex) (a : ClaimAtom) (m : ℕ) : Prop :=
  m ∈ (idx.byClaimKey.lookup a.claimKeyHash).getD [] ∨
    ∃ k as, idx.atomStore.lookup k = some as ∧ ∃ e ∈ as, e.memoryId = m ∧ e.subject = a.subject

/-- The atoms of a subject. -/
lemma mem_foldl_subject {atom : ClaimAtom} (atoms : List ClaimAtom) (ids : Finset ℕ) :
    m ∈ atoms.foldl (fun ids existing =>
      if existing.memoryId ≠ memoryId ∧ existing.subject = atom.subject ∧ existing.memoryId ∉ ids
      then insert existing.memoryId ids else ids) ids ↔
    m ∈ ids ∨ m ≠ memoryId ∧ ∃ e ∈ atoms, e.memoryId = m ∧ e.subject = atom.subject := by
  induction atoms generalizing ids with
  | nil => simp
  | cons e atoms ih =>
    rw [List.foldl_cons, ih, List.exists_mem_cons_iff, and_or_left, ← or_assoc]
    refine or_congr_left ?_
    split_ifs with hif
    · obtain ⟨hne, hsubject, -⟩ := hif
      rw [Finset.mem_insert, or_comm]
      refine or_congr_right ⟨?_, fun h => h.2.1.symm⟩
      rintro rfl
      exact ⟨hne, rfl, hsubject⟩
    · refine ⟨Or.inl, fun h => h.elim id ?_⟩
      rintro ⟨hne, rfl, hsubject⟩
      by_contra hnot
      exact hif ⟨hne, hsubject, hnot⟩

lemma mem_sweep {storeOrder : KeyOrder ℕ} {ids : Finset ℕ} {a : ClaimAtom} :
    m ∈ idx.sweep storeOrder memoryId ids a ↔ m ∈ ids ∨ m ≠ memoryId ∧ idx.Shares a m := by
  have hall : (∃ e ∈ (entries storeOrder idx.atomStore).flatMap (·.2), e.memoryId = m ∧
      e.subject = a.subject) ↔
      ∃ k as, idx.atomStore.lookup k = some as ∧ ∃ e ∈ as, e.memoryId = m ∧ e.subject = a.subject := by
    constructor
    · rintro ⟨e, he, heq⟩
      obtain ⟨x, hx, he⟩ := List.mem_flatMap.mp he
      exact ⟨x.1, x.2, mem_entries.mp hx, e, he, heq⟩
    · rintro ⟨k, as, hlookup, e, he, heq⟩
      exact ⟨e, List.mem_flatMap.mpr ⟨(k, as), mem_entries.mpr hlookup, he⟩, heq⟩
  rw [sweep, mem_foldl_subject, hall, Finset.mem_union, List.mem_toFinset, List.mem_filter,
    decide_eq_true_iff, or_assoc, and_comm (b := m ≠ memoryId), ← and_or_left, Shares]

/-- The candidates share a key or a subject. -/
lemma mem_candidateIds (storeOrder : KeyOrder ℕ) : m ∈ idx.candidateIds storeOrder memoryId newAtoms ↔
    m ≠ memoryId ∧ ∃ a ∈ newAtoms, idx.Shares a m := by
  have hfold : ∀ (atoms : List ClaimAtom) (ids : Finset ℕ),
      m ∈ atoms.foldl (idx.sweep storeOrder memoryId) ids ↔
      m ∈ ids ∨ m ≠ memoryId ∧ ∃ a ∈ atoms, idx.Shares a m := by
    intro atoms
    induction atoms with
    | nil => simp
    | cons a atoms ih =>
      intro ids
      rw [List.foldl_cons, ih, mem_sweep, List.exists_mem_cons_iff, or_assoc, ← and_or_left]
  rw [candidateIds, hfold]
  simp

/-- **The prefilter drops none** that oppose the memory. -/
lemma Registered.mem_candidateIds_of_opposed (h : Registered U hash idx done) (hq : q ∈ done)
    (hne : q.memoryId ≠ p.memoryId) (hopposed : Opposed U hash p q) (storeOrder : KeyOrder ℕ) :
    q.memoryId ∈ idx.candidateIds storeOrder p.memoryId (atomsOf U hash p) := by
  obtain ⟨a, ha, b, hb, hscore⟩ := hopposed
  refine (mem_candidateIds storeOrder).mpr ⟨hne, a, ha, ?_⟩
  rcases related_of_pos threshold_pos hscore with hkey | hsubject
  · exact Or.inl ((h.keyed _ _).mpr ⟨q, hq, rfl, b, hb, hkey.symm⟩)
  · exact Or.inr ⟨q.memoryId, _, h.stored q hq (List.ne_nil_of_mem hb), b, hb, (rooted_of_mem hb).2,
      hsubject.symm⟩

/-! ## What is raised -/

/-- Where no candidate is the pair, there is none already. -/
lemma already_eq_false {peerId : ℕ} (h : ∀ c ∈ idx.candidates,
    ¬(c.memoryA = peerId ∧ c.memoryB = memoryId ∨ c.memoryB = peerId ∧ c.memoryA = memoryId)) :
    idx.already memoryId peerId = false := by
  unfold already
  cases idx.byMemory.lookup memoryId with
  | none => rfl
  | some ids =>
    refine List.any_eq_false.mpr fun cid _ => ?_
    cases hfind : idx.candidates.find? (·.id = cid) with
    | none => simp
    | some c => simpa using h c (List.mem_of_find?_eq_some hfind)

/-- The atoms of a memory that is stored oppose those of another one. -/
def opposes (U : Unicode) (idx : ContradictionIndex) (newAtoms : List ClaimAtom) (peerId : ℕ) : Bool :=
  (idx.atomStore.lookup peerId).any fun as => threshold ≤ (bestPair U newAtoms as).total

/-- While a memory is compared with some others: those that oppose it are raised. -/
structure Comparing (U : Unicode) (idx : ContradictionIndex) (memoryId : ℕ) (newAtoms : List ClaimAtom)
    (acc : ContradictionIndex × List ContradictionCandidate) (peers : List ℕ) : Prop where
  atomStore : acc.1.atomStore = idx.atomStore
  byClaimKey : acc.1.byClaimKey = idx.byClaimKey
  candidates : acc.1.candidates = idx.candidates ++ acc.2
  memoryB : ∀ c ∈ acc.2, c.memoryB = memoryId
  memoryA : acc.2.map (·.memoryA) = peers.filter (opposes U idx newAtoms)

lemma Comparing.step {acc : ContradictionIndex × List ContradictionCandidate} {peers : List ℕ}
    {peerId : ℕ} {ts : ℤ} (h : Comparing U idx memoryId newAtoms acc peers)
    (hfresh : ∀ c ∈ idx.candidates, c.memoryA ≠ memoryId ∧ c.memoryB ≠ memoryId) (hpeer : peerId ∉ peers)
    (hne : peerId ≠ memoryId) :
    Comparing U idx memoryId newAtoms (comparePeer U memoryId ts newAtoms acc peerId) (peers ++ [peerId]) := by
  have halready : acc.1.already memoryId peerId = false := by
    refine already_eq_false fun c hc hpair => ?_
    rw [h.candidates, List.mem_append] at hc
    rcases hc with hc | hc
    · exact hpair.elim (fun hp => (hfresh c hc).2 hp.2) fun hp => (hfresh c hc).1 hp.2
    · have hA : c.memoryA ∈ peers := by
        have hmem : c.memoryA ∈ acc.2.map (·.memoryA) := List.mem_map_of_mem hc
        rw [h.memoryA] at hmem
        exact List.mem_of_mem_filter hmem
      rcases hpair with hp | hp
      · exact hpeer (hp.1 ▸ hA)
      · exact hne (hp.1.symm.trans (h.memoryB c hc))
  have hopposes : opposes U idx newAtoms peerId =
      (acc.1.atomStore.lookup peerId).any fun as => threshold ≤ (bestPair U newAtoms as).total := by
    rw [opposes, h.atomStore]
  unfold comparePeer
  cases hlookup : acc.1.atomStore.lookup peerId with
  | none =>
    refine ⟨h.atomStore, h.byClaimKey, h.candidates, h.memoryB, ?_⟩
    rw [hlookup] at hopposes
    rw [List.filter_append, List.filter_cons_of_neg (by rw [hopposes]; simp), List.filter_nil,
      List.append_nil]
    exact h.memoryA
  | some peerAtoms =>
    rw [hlookup, Option.any_some] at hopposes
    dsimp only
    split_ifs with hraise
    · refine ⟨h.atomStore, h.byClaimKey, ?_,
        List.forall_mem_append.mpr ⟨h.memoryB, List.forall_mem_singleton.mpr rfl⟩, ?_⟩
      · change acc.1.candidates ++ [_] = _
        rw [h.candidates, List.append_assoc]
        rfl
      · rw [List.map_append, List.filter_append, h.memoryA, List.filter_cons_of_pos
          (by rw [hopposes]; exact decide_eq_true hraise.1)]
        rfl
    · have hlow : ¬threshold ≤ (bestPair U newAtoms peerAtoms).total := fun hle => hraise ⟨hle, halready⟩
      refine ⟨h.atomStore, h.byClaimKey, h.candidates, h.memoryB, ?_⟩
      rw [List.filter_append, List.filter_cons_of_neg (by rw [hopposes]; simpa using hlow),
        List.filter_nil, List.append_nil]
      exact h.memoryA

/-- What comparing a memory with some others comes to. -/
lemma comparing_foldl {ts : ℤ} (hfresh : ∀ c ∈ idx.candidates, c.memoryA ≠ memoryId ∧ c.memoryB ≠ memoryId)
    {peers : List ℕ} (hnodup : peers.Nodup) (hne : memoryId ∉ peers) :
    Comparing U idx memoryId newAtoms (peers.foldl (comparePeer U memoryId ts newAtoms) (idx, [])) peers := by
  induction peers using List.reverseRecOn with
  | nil => exact ⟨rfl, rfl, (List.append_nil _).symm, fun c hc => absurd hc List.not_mem_nil, rfl⟩
  | append_singleton peers peerId ih =>
    obtain ⟨hpeers, -, hdisjoint⟩ := List.nodup_append.mp hnodup
    rw [List.mem_append, not_or, List.mem_singleton] at hne
    rw [List.foldl_append]
    exact (ih hpeers hne.1).step hfresh
      (fun hmem => hdisjoint peerId hmem peerId (List.mem_singleton_self _) rfl) (Ne.symm hne.2)

/-- A memory without atoms changes nothing. -/
lemma Registered.concat_of_nil (h : Registered U hash idx done) (hnil : atomsOf U hash p = []) :
    Registered U hash idx (done ++ [p]) := by
  refine ⟨fun q hq hne => ?_, fun m as hlookup => ?_, fun key m => ?_, fun c hc => ?_⟩
  · rcases List.mem_append.mp hq with hq | hq
    · exact h.stored q hq hne
    · rw [List.mem_singleton.mp hq] at hne
      exact absurd hnil hne
  · obtain ⟨q, hq, heq⟩ := h.storedOnly m as hlookup
    exact ⟨q, List.mem_append_left _ hq, heq⟩
  · rw [h.keyed]
    constructor
    · rintro ⟨q, hq, heq⟩
      exact ⟨q, List.mem_append_left _ hq, heq⟩
    · rintro ⟨q, hq, heq, a, ha, hkey⟩
      rcases List.mem_append.mp hq with hq | hq
      · exact ⟨q, hq, heq, a, ha, hkey⟩
      · rw [List.mem_singleton.mp hq, hnil] at ha
        cases ha
  · rw [List.map_append, List.mem_append, List.mem_append]
    exact ⟨Or.inl (h.mentioned c hc).1, Or.inl (h.mentioned c hc).2⟩

/-- Registering a memory that is new. -/
lemma Registered.registerAtoms {idx' : ContradictionIndex} {raised : List ContradictionCandidate}
    (h : Registered U hash idx done) (hnew : p.memoryId ∉ done.map (·.memoryId))
    (hstore : idx'.atomStore = idx.atomStore) (hkeys : idx'.byClaimKey = idx.byClaimKey)
    (hcandidates : idx'.candidates = idx.candidates ++ raised)
    (hraised : ∀ c ∈ raised, c.memoryA ∈ done.map (·.memoryId) ∧ c.memoryB = p.memoryId) :
    Registered U hash (idx'.registerAtoms p.memoryId (atomsOf U hash p)) (done ++ [p]) := by
  refine ⟨fun q hq hne => ?_, fun m as hlookup => ?_, fun key m => ?_, fun c hc => ?_⟩
  · change (idx'.atomStore.insert p.memoryId _).lookup q.memoryId = _
    rcases List.mem_append.mp hq with hq | hq
    · have hother : q.memoryId ≠ p.memoryId := fun heq => hnew (heq ▸ List.mem_map_of_mem hq)
      rw [Finmap.lookup_insert_of_ne _ hother, hstore]
      exact h.stored q hq hne
    · rw [List.mem_singleton.mp hq, Finmap.lookup_insert]
  · change (idx'.atomStore.insert p.memoryId _).lookup m = some as at hlookup
    by_cases hm : m = p.memoryId
    · rw [hm, Finmap.lookup_insert] at hlookup
      exact ⟨p, List.mem_concat_self, hm.symm,
        (Option.some.inj hlookup).symm⟩
    · rw [Finmap.lookup_insert_of_ne _ hm, hstore] at hlookup
      obtain ⟨q, hq, heq⟩ := h.storedOnly m as hlookup
      exact ⟨q, List.mem_append_left _ hq, heq⟩
  · change m ∈ ((pushAll idx'.byClaimKey _).lookup key).getD [] ↔ _
    rw [getD_lookup_pushAll, List.mem_append, hkeys, h.keyed]
    constructor
    · rintro (⟨q, hq, heq⟩ | hm)
      · exact ⟨q, List.mem_append_left _ hq, heq⟩
      · obtain ⟨e, he, rfl⟩ := List.mem_map.mp hm
        obtain ⟨he, hkey⟩ := List.mem_filter.mp he
        obtain ⟨a, ha, rfl⟩ := List.mem_map.mp he
        exact ⟨p, List.mem_concat_self, rfl, a, ha, of_decide_eq_true hkey⟩
    · rintro ⟨q, hq, rfl, a, ha, rfl⟩
      rcases List.mem_append.mp hq with hq | hq
      · exact Or.inl ⟨q, hq, rfl, a, ha, rfl⟩
      · rw [List.mem_singleton.mp hq] at ha ⊢
        exact Or.inr (List.mem_map.mpr ⟨(a.claimKeyHash, p.memoryId),
          List.mem_filter.mpr ⟨List.mem_map_of_mem ha, decide_eq_true rfl⟩, rfl⟩)
  · change c ∈ idx'.candidates at hc
    rw [hcandidates, List.mem_append] at hc
    rw [List.map_append, List.mem_append, List.mem_append]
    rcases hc with hc | hc
    · exact ⟨Or.inl (h.mentioned c hc).1, Or.inl (h.mentioned c hc).2⟩
    · exact ⟨Or.inl (hraised c hc).1, Or.inr (by rw [(hraised c hc).2]; exact List.mem_singleton_self _)⟩

/-- Storing a memory raises those that oppose it, each once, and registers it. -/
lemma Registered.detect (h : Registered U hash idx done) (hnew : p.memoryId ∉ done.map (·.memoryId)) :
    Registered U hash (detectForNewMemory U hash idx p).1 (done ++ [p]) ∧
    (∀ c ∈ (detectForNewMemory U hash idx p).2, c.memoryB = p.memoryId) ∧
    ((detectForNewMemory U hash idx p).2.map (·.memoryA)).Nodup ∧
    ∀ m, m ∈ (detectForNewMemory U hash idx p).2.map (·.memoryA) ↔
      ∃ q ∈ done, q.memoryId = m ∧ Opposed U hash p q := by
  unfold detectForNewMemory
  rw [← atomsOf]
  dsimp only
  split_ifs with hnil
  · refine ⟨h.concat_of_nil hnil, fun c hc => absurd hc List.not_mem_nil, List.nodup_nil, fun m => ?_⟩
    refine iff_of_false List.not_mem_nil ?_
    rintro ⟨q, -, -, a, ha, -⟩
    rw [hnil] at ha
    cases ha
  · have hfresh : ∀ c ∈ idx.candidates, c.memoryA ≠ p.memoryId ∧ c.memoryB ≠ p.memoryId := by
      intro c hc
      obtain ⟨hA, hB⟩ := h.mentioned c hc
      exact ⟨fun heq => hnew (heq ▸ hA), fun heq => hnew (heq ▸ hB)⟩
    have hself : p.memoryId ∉ p.candidateOrder.list
        (idx.candidateIds p.storeOrder p.memoryId (atomsOf U hash p)) := by
      rw [p.candidateOrder.mem, mem_candidateIds]
      exact fun hmem => hmem.1 rfl
    generalize hcompare : (p.candidateOrder.list (idx.candidateIds p.storeOrder p.memoryId
      (atomsOf U hash p))).foldl (comparePeer U p.memoryId p.ts (atomsOf U hash p)) (idx, []) = out
    have hout : Comparing U idx p.memoryId (atomsOf U hash p) out (p.candidateOrder.list
        (idx.candidateIds p.storeOrder p.memoryId (atomsOf U hash p))) := by
      rw [← hcompare]
      exact comparing_foldl hfresh (p.candidateOrder.nodup _) hself
    have hmem : ∀ m, m ∈ out.2.map (·.memoryA) ↔ ∃ q ∈ done, q.memoryId = m ∧ Opposed U hash p q := by
      intro m
      rw [hout.memoryA, List.mem_filter, p.candidateOrder.mem, opposes, Option.any_eq_true]
      constructor
      · rintro ⟨-, as, hlookup, hle⟩
        obtain ⟨q, hq, heq, rfl⟩ := h.storedOnly m as hlookup
        exact ⟨q, hq, heq, (le_bestPair threshold_pos).mp (of_decide_eq_true hle)⟩
      · rintro ⟨q, hq, rfl, hopposed⟩
        have hne : q.memoryId ≠ p.memoryId := fun heq => hnew (heq ▸ List.mem_map_of_mem hq)
        refine ⟨h.mem_candidateIds_of_opposed hq hne hopposed p.storeOrder, atomsOf U hash q,
          h.stored q hq ?_, decide_eq_true ((le_bestPair threshold_pos).mpr hopposed)⟩
        obtain ⟨-, -, b, hb, -⟩ := hopposed
        exact List.ne_nil_of_mem hb
    refine ⟨h.registerAtoms hnew hout.atomStore hout.byClaimKey hout.candidates fun c hc => ?_,
      hout.memoryB, ?_, hmem⟩
    · obtain ⟨q, hq, heq, -⟩ := (hmem c.memoryA).mp (List.mem_map_of_mem hc)
      exact ⟨heq ▸ List.mem_map_of_mem hq, hout.memoryB c hc⟩
    · rw [hout.memoryA]
      exact (p.candidateOrder.nodup _).filter _

/-! ## All pairs, each once -/

/-- The pair of a candidate. -/
def pair (c : ContradictionCandidate) : Sym2 ℕ := s(c.memoryA, c.memoryB)

/-- Two of some memories oppose each other, and are a pair. -/
def OpposedPair (U : Unicode) (hash : Text → ℕ) (memories : List Stored) (z : Sym2 ℕ) : Prop :=
  ∃ p ∈ memories, ∃ q ∈ memories, z = s(p.memoryId, q.memoryId) ∧ p.memoryId ≠ q.memoryId ∧
    Opposed U hash p q

/-- What a memory is, without the orders in which maps are walked. -/
def Stored.memory (p : Stored) : ℕ × Bytes × Text := (p.memoryId, p.content, p.realm)

lemma detectAll_concat (memories : List Stored) (p : Stored) :
    detectAll U hash (memories ++ [p]) =
      ((detectForNewMemory U hash (detectAll U hash memories).1 p).1,
        (detectAll U hash memories).2 ++ (detectForNewMemory U hash (detectAll U hash memories).1 p).2) := by
  rw [detectAll, List.foldl_append]
  rfl

variable {memories : List Stored}

/-- The memories in front of a last one. -/
lemma ids_concat (hids : ((memories ++ [p]).map (·.memoryId)).Nodup) :
    (memories.map (·.memoryId)).Nodup ∧ p.memoryId ∉ memories.map (·.memoryId) := by
  rw [List.map_append] at hids
  obtain ⟨hmemories, -, hdisjoint⟩ := List.nodup_append.mp hids
  exact ⟨hmemories, fun hmem => hdisjoint _ hmem _ (List.mem_singleton_self _) rfl⟩

lemma registered_detectAll (hids : (memories.map (·.memoryId)).Nodup) :
    Registered U hash (detectAll U hash memories).1 memories := by
  induction memories using List.reverseRecOn with
  | nil => exact registered_new
  | append_singleton memories p ih =>
    obtain ⟨hmemories, hnew⟩ := ids_concat hids
    rw [detectAll_concat]
    exact ((ih hmemories).detect hnew).1

/-- The pairs of a memory that is new. -/
lemma mem_pairs_detect (hids : ((memories ++ [p]).map (·.memoryId)).Nodup) {z : Sym2 ℕ} :
    z ∈ (detectForNewMemory U hash (detectAll U hash memories).1 p).2.map pair ↔
      ∃ q ∈ memories, z = s(q.memoryId, p.memoryId) ∧ Opposed U hash p q := by
  obtain ⟨hmemories, hnew⟩ := ids_concat hids
  have hregistered : Registered U hash _ memories := registered_detectAll hmemories
  obtain ⟨-, hB, -, hA⟩ := hregistered.detect hnew
  rw [List.mem_map]
  constructor
  · rintro ⟨c, hc, rfl⟩
    obtain ⟨q, hq, heq, hopposed⟩ := (hA c.memoryA).mp (List.mem_map_of_mem hc)
    exact ⟨q, hq, by rw [pair, hB c hc, heq], hopposed⟩
  · rintro ⟨q, hq, rfl, hopposed⟩
    obtain ⟨c, hc, heq⟩ := List.mem_map.mp ((hA q.memoryId).mpr ⟨q, hq, rfl, hopposed⟩)
    exact ⟨c, hc, by rw [pair, hB c hc, heq]⟩

/-- The raised pairs are those that oppose each other. -/
lemma mem_pairs_detectAll (hids : (memories.map (·.memoryId)).Nodup) {z : Sym2 ℕ} :
    z ∈ (detectAll U hash memories).2.map pair ↔ OpposedPair U hash memories z := by
  induction memories using List.reverseRecOn with
  | nil =>
    refine iff_of_false List.not_mem_nil ?_
    rintro ⟨p, hp, -⟩
    cases hp
  | append_singleton memories p ih =>
    obtain ⟨hmemories, hnew⟩ := ids_concat hids
    rw [detectAll_concat, List.map_append, List.mem_append, ih hmemories, mem_pairs_detect hids]
    have hlast : p ∈ memories ++ [p] := List.mem_concat_self
    constructor
    · rintro (⟨q, hq, r, hr, heq⟩ | ⟨q, hq, rfl, hopposed⟩)
      · exact ⟨q, List.mem_append_left _ hq, r, List.mem_append_left _ hr, heq⟩
      · exact ⟨q, List.mem_append_left _ hq, p, hlast, rfl,
          fun heq => hnew (heq ▸ List.mem_map_of_mem hq), opposed_comm.mp hopposed⟩
    · rintro ⟨q, hq, r, hr, rfl, hne, hopposed⟩
      rcases List.mem_append.mp hq with hq' | hq' <;> rcases List.mem_append.mp hr with hr' | hr'
      · exact Or.inl ⟨q, hq', r, hr', rfl, hne, hopposed⟩
      · obtain rfl := List.mem_singleton.mp hr'
        exact Or.inr ⟨q, hq', rfl, opposed_comm.mp hopposed⟩
      · obtain rfl := List.mem_singleton.mp hq'
        exact Or.inr ⟨r, hr', Sym2.eq_swap, hopposed⟩
      · rw [List.mem_singleton.mp hq', List.mem_singleton.mp hr'] at hne
        exact absurd rfl hne

/-- No pair is raised twice. -/
lemma nodup_pairs_detectAll (hids : (memories.map (·.memoryId)).Nodup) :
    ((detectAll U hash memories).2.map pair).Nodup := by
  induction memories using List.reverseRecOn with
  | nil => exact List.nodup_nil
  | append_singleton memories p ih =>
    obtain ⟨hmemories, hnew⟩ := ids_concat hids
    have hregistered : Registered U hash _ memories := registered_detectAll hmemories
    obtain ⟨-, hB, hA, -⟩ := hregistered.detect hnew
    rw [detectAll_concat, List.map_append]
    refine List.nodup_append.mpr ⟨ih hmemories, ?_, fun z hz w hw heq => ?_⟩
    · have hmap : (detectForNewMemory U hash (detectAll U hash memories).1 p).2.map pair =
          ((detectForNewMemory U hash (detectAll U hash memories).1 p).2.map (·.memoryA)).map
            fun m => s(m, p.memoryId) := by
        rw [List.map_map]
        refine List.map_congr_left fun c hc => ?_
        rw [pair, hB c hc]
        rfl
      rw [hmap]
      exact hA.map fun m m' h => Sym2.congr_left.mp h
    · subst heq
      obtain ⟨q, hq, r, hr, rfl, -⟩ := (mem_pairs_detectAll hmemories).mp hz
      obtain ⟨q', -, heq, -⟩ := (mem_pairs_detect hids).mp hw
      have hmem : p.memoryId ∈ s(q.memoryId, r.memoryId) := by
        rw [heq]
        exact Sym2.mem_mk_right _ _
      rcases Sym2.mem_iff.mp hmem with h | h
      · exact hnew (h ▸ List.mem_map_of_mem hq)
      · exact hnew (h ▸ List.mem_map_of_mem hr)

/-- Pairs that oppose each other do so wherever the memories are. -/
lemma OpposedPair.of_perm {memories memories' : List Stored} {z : Sym2 ℕ}
    (hperm : (memories'.map Stored.memory).Perm (memories.map Stored.memory))
    (h : OpposedPair U hash memories z) : OpposedPair U hash memories' z := by
  have hfind : ∀ p ∈ memories, ∃ p' ∈ memories', p'.memoryId = p.memoryId ∧
      atomsOf U hash p' = atomsOf U hash p := by
    intro p hp
    obtain ⟨p', hp', heq⟩ := List.mem_map.mp (hperm.mem_iff.mpr (List.mem_map_of_mem hp))
    obtain ⟨hid, heq⟩ := Prod.mk.inj heq
    obtain ⟨hcontent, hrealm⟩ := Prod.mk.inj heq
    exact ⟨p', hp', hid, by rw [atomsOf, hid, hcontent, hrealm, ← atomsOf]⟩
  obtain ⟨p, hp, q, hq, rfl, hne, hopposed⟩ := h
  obtain ⟨p', hp', hid, hatoms⟩ := hfind p hp
  obtain ⟨q', hq', hid', hatoms'⟩ := hfind q hq
  refine ⟨p', hp', q', hq', by rw [hid, hid'], by rw [hid, hid']; exact hne, ?_⟩
  rw [Opposed, hatoms, hatoms']
  exact hopposed

/-- **Detection is exact.**  A memory that is stored raises exactly the memories before it that oppose it,
each pair is raised once, in whatever order the memories are stored, and the score is symmetric. -/
theorem detection_exact (U : Unicode) (hash : Text → ℕ) (memories : List Stored)
    (hids : (memories.map (·.memoryId)).Nodup) :
    (∀ earlier p later, memories = earlier ++ p :: later →
      (∀ c ∈ (detectForNewMemory U hash (detectAll U hash earlier).1 p).2, c.memoryB = p.memoryId) ∧
      ((detectForNewMemory U hash (detectAll U hash earlier).1 p).2.map (·.memoryA)).Nodup ∧
      ∀ m, m ∈ (detectForNewMemory U hash (detectAll U hash earlier).1 p).2.map (·.memoryA) ↔
        ∃ q ∈ earlier, q.memoryId = m ∧ Opposed U hash p q) ∧
    ((detectAll U hash memories).2.map pair).Nodup ∧
    (∀ memories', (memories'.map Stored.memory).Perm (memories.map Stored.memory) →
      ∀ z, z ∈ (detectAll U hash memories').2.map pair ↔ z ∈ (detectAll U hash memories).2.map pair) ∧
    ∀ p q : Stored, ∀ a ∈ atomsOf U hash p, ∀ b ∈ atomsOf U hash q,
      (scoreContradiction U a b).total = (scoreContradiction U b a).total := by
  refine ⟨?_, nodup_pairs_detectAll hids, fun memories' hperm z => ?_, fun p q a ha b hb => ?_⟩
  · rintro earlier p later rfl
    rw [List.append_cons, List.map_append] at hids
    obtain ⟨hearlier, hnew⟩ := ids_concat (List.nodup_append.mp hids).1
    exact ((registered_detectAll hearlier).detect hnew).2
  · have hids' : (memories'.map (·.memoryId)).Nodup := by
      have hmap : ∀ l : List Stored, l.map (·.memoryId) = (l.map Stored.memory).map (·.1) := fun l => by
        rw [List.map_map]
        rfl
      rw [hmap, (hperm.map _).nodup_iff, ← hmap]
      exact hids
    rw [mem_pairs_detectAll hids, mem_pairs_detectAll hids']
    exact ⟨fun h => h.of_perm hperm.symm, fun h => h.of_perm hperm⟩
  · exact (score_comm (rooted_of_mem ha).1 (rooted_of_mem hb).1).1

/-- A memory whose text says something of `a`. -/
def saying (memoryId : ℕ) (text : String) : Stored :=
  ⟨memoryId, text.toUTF8.data.toList, [], 0, upwards, upwards⟩

/-- A belief and its correction, in both orders. -/
theorem detection_of_two :
    ((detectAll Unicode.ascii fnv1a [saying 1 "[BELIEF] a", saying 2 "[CORRECTION] a"]).2.map
      pair).Nodup ∧
    s(1, 2) ∈ (detectAll Unicode.ascii fnv1a [saying 2 "[CORRECTION] a", saying 1 "[BELIEF] a"]).2.map
      pair := by
  obtain ⟨-, hnodup, horder, -⟩ := detection_exact Unicode.ascii fnv1a
    [saying 1 "[BELIEF] a", saying 2 "[CORRECTION] a"] (by decide)
  have hswap := horder [saying 2 "[CORRECTION] a", saying 1 "[BELIEF] a"]
    ((List.Perm.swap (saying 1 "[BELIEF] a") (saying 2 "[CORRECTION] a") []).map Stored.memory) s(1, 2)
  refine ⟨hnodup, hswap.mpr ?_⟩
  decide +kernel

end Detection

end ContradictionIndex

end ChittaField.Claims
