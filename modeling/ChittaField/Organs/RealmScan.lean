import ChittaField.Lib.Exits
import ChittaField.Lib.Pairs
import ChittaField.Organs.Contradictions

/-!
# Scans of realms

A scan of a realm puts the atoms of all memories to buckets by the hashes of their keys, and compares the
memories of a bucket with each other.

A bucket has an entry for each atom and not for each memory, and two memories may meet in several
buckets.  `scan_agrees_iff` says where the scan nevertheless gives each pair that shares a key once, and
no memory with itself.
-/

namespace ChittaField.Claims

open HashMaps Pairs Exits
open Spans (Text Unicode)

namespace ContradictionIndex

/-- The orders in which the maps of a scan are walked. -/
structure ScanOrders where
  memories : KeyOrder ℕ
  buckets : KeyOrder ℕ

/-- The numbers that were given out, and what was found. -/
structure Scan where
  nextId : ℕ
  results : List ContradictionCandidate

/-- The atoms of the memories that have some. -/
def realmAtoms (U : Unicode) (hash : Text → ℕ) (realm : Text) (payloads : List (ℕ × Bytes)) :
    Finmap fun _ : ℕ => List ClaimAtom :=
  payloads.foldl (fun m p =>
    let atoms := parseClaimAtoms U hash p.1 realm p.2
    if atoms = [] then m else m.insert p.1 atoms) ∅

/-- The memories by the hashes of their keys, one entry for each atom. -/
def buckets (order : KeyOrder ℕ) (atoms : Finmap fun _ : ℕ => List ClaimAtom) :
    Finmap fun _ : ℕ => List ℕ :=
  pushAll ∅ ((entries order atoms).flatMap fun e => e.2.map fun a => (a.claimKeyHash, e.1))

/-- Compare two entries of a bucket; an error is the end of the scan. -/
def scanPair (U : Unicode) (atoms : Finmap fun _ : ℕ => List ClaimAtom) (limit : ℕ) (ts : ℤ) (s : Scan)
    (p : ℕ × ℕ) : Except Scan Scan :=
  match atoms.lookup p.1, atoms.lookup p.2 with
  | some atomsA, some atomsB =>
    let best := bestPair U atomsA atomsB
    if threshold ≤ best.total then
      let s : Scan := ⟨s.nextId + 1, s.results ++ [⟨s.nextId, p.1, p.2, best.total, best.sameScore,
        best.oppositionScore, best.reason, .open_, ts⟩]⟩
      if limit ≤ s.results.length then .error s else .ok s
    else .ok s
  | _, _ => .ok s

/-- Compare the memories of each bucket.  Buckets with one entry have no pairs. -/
def scanRealm (U : Unicode) (hash : Text → ℕ) (orders : ScanOrders) (idx : ContradictionIndex) (realm : Text)
    (payloads : List (ℕ × Bytes)) (limit : ℕ) (ts : ℤ) :
    ContradictionIndex × List ContradictionCandidate :=
  let atoms := realmAtoms U hash realm payloads
  let ps := (entries orders.buckets (buckets orders.memories atoms)).flatMap fun e => Pairs.pairs e.2
  let s := outcome (ps.foldlM (scanPair U atoms limit ts) ⟨idx.nextId, []⟩)
  ({ idx with nextId := s.nextId }, s.results)

/-! ## What a scan finds -/

variable {U : Unicode} {hash : Text → ℕ} {atoms : Finmap fun _ : ℕ => List ClaimAtom} {limit : ℕ} {ts : ℤ}
  {x y : ℕ}

/-- The best atoms of two memories have a score that is high enough. -/
def meets (U : Unicode) (atoms : Finmap fun _ : ℕ => List ClaimAtom) (x y : ℕ) : Bool :=
  (atoms.lookup x).any fun as => (atoms.lookup y).any fun bs => threshold ≤ (bestPair U as bs).total

/-- A pair that meets is found. -/
lemma results_scanPair (s : Scan) (p : ℕ × ℕ) :
    (outcome (scanPair U atoms limit ts s p)).results.map pair =
      s.results.map pair ++ ([p].filter fun q => meets U atoms q.1 q.2).map unordered := by
  unfold scanPair meets
  cases hA : atoms.lookup p.1 with
  | none => simp [hA, outcome]
  | some atomsA =>
    cases hB : atoms.lookup p.2 with
    | none => simp [hA, hB, outcome]
    | some atomsB =>
      dsimp only
      by_cases hle : threshold ≤ (bestPair U atomsA atomsB).total
      · rw [if_pos hle, List.filter_cons_of_pos (by simpa [hA, hB] using hle)]
        split_ifs <;> simp [outcome, pair, unordered]
      · rw [if_neg hle, List.filter_cons_of_neg (by simpa [hA, hB] using hle)]
        simp [outcome]

/-- A scan that was left has as many results as it may have. -/
lemma limit_le_of_error {s s' : Scan} {p : ℕ × ℕ} (h : scanPair U atoms limit ts s p = .error s') :
    limit ≤ s'.results.length := by
  unfold scanPair at h
  cases hA : atoms.lookup p.1 with
  | none => simp [hA] at h
  | some atomsA =>
    cases hB : atoms.lookup p.2 with
    | none => simp [hA, hB] at h
    | some atomsB =>
      rw [hA, hB] at h
      dsimp only at h
      split_ifs at h with hle hlimit
      obtain rfl := Except.error.inj h
      exact hlimit

/-- A scan that does not reach its limit finds all pairs that meet. -/
lemma results_foldlM {ps : List (ℕ × ℕ)} {s : Scan}
    (h : (outcome (ps.foldlM (scanPair U atoms limit ts) s)).results.length < limit) :
    (outcome (ps.foldlM (scanPair U atoms limit ts) s)).results.map pair =
      s.results.map pair ++ (ps.filter fun q => meets U atoms q.1 q.2).map unordered := by
  rw [@outcome_foldlM_eq _ _ (fun s : Scan => limit ≤ s.results.length) _ _ _
    (fun s p s' => limit_le_of_error) (not_le.mpr h)]
  clear h
  induction ps generalizing s with
  | nil => exact (List.append_nil _).symm
  | cons p ps ih =>
    rw [List.foldl_cons, ih, results_scanPair, List.append_assoc, ← List.map_append, ← List.filter_append]
    rfl

/-! ## How often two memories meet -/

/-- A bucket has nothing of a memory that is not there. -/
lemma count_bucket_of_notMem {es : List (ℕ × List ClaimAtom)} {k : ℕ} (hx : x ∉ es.map (·.1)) :
    (((es.flatMap fun e => e.2.map fun a => (a.claimKeyHash, e.1)).filter (·.1 = k)).map (·.2)).count x =
      0 := by
  refine List.count_eq_zero.mpr fun hmem => hx ?_
  obtain ⟨e, he, rfl⟩ := List.mem_map.mp hmem
  obtain ⟨f, hf, he⟩ := List.mem_flatMap.mp (List.mem_of_mem_filter he)
  obtain ⟨a, -, rfl⟩ := List.mem_map.mp he
  exact List.mem_map_of_mem hf

/-- A bucket has an entry for each atom with its hash. -/
lemma count_bucket {es : List (ℕ × List ClaimAtom)} {k : ℕ} {as : List ClaimAtom}
    (hnodup : (es.map (·.1)).Nodup) (hx : (x, as) ∈ es) :
    (((es.flatMap fun e => e.2.map fun a => (a.claimKeyHash, e.1)).filter (·.1 = k)).map (·.2)).count x =
      as.countP (·.claimKeyHash = k) := by
  induction es with
  | nil => cases hx
  | cons e es ih =>
    rw [List.map_cons] at hnodup
    obtain ⟨hnot, hnodup⟩ := List.nodup_cons.mp hnodup
    rw [List.flatMap_cons, List.filter_append, List.map_append, List.count_append]
    have hhead : (((e.2.map fun a => (a.claimKeyHash, e.1)).filter (·.1 = k)).map (·.2)).count x =
        if e.1 = x then e.2.countP (·.claimKeyHash = k) else 0 := by
      rw [List.filter_map, List.map_map, List.count, List.countP_map]
      split_ifs with hex
      · rw [List.countP_filter]
        refine List.countP_congr fun a _ => ?_
        simp [hex]
      · refine List.countP_eq_zero.mpr fun a _ => ?_
        simpa using hex
    rcases List.mem_cons.mp hx with rfl | hx
    · rw [hhead, if_pos rfl, count_bucket_of_notMem hnot, Nat.add_zero]
    · have hne : e.1 ≠ x := fun heq => hnot (heq ▸ List.mem_map_of_mem hx)
      rw [hhead, if_neg hne, ih hnodup hx, Nat.zero_add]

/-- The atoms of a memory, if it has some. -/
def atomsAt (atoms : Finmap fun _ : ℕ => List ClaimAtom) (x : ℕ) : List ClaimAtom :=
  (atoms.lookup x).getD []

/-- The hashes that have buckets, in an order. -/
def bucketKeys (orders : ScanOrders) (atoms : Finmap fun _ : ℕ => List ClaimAtom) : List ℕ :=
  orders.buckets.list (buckets orders.memories atoms).keys

variable {orders : ScanOrders}

/-- A memory is in a bucket as often as it has atoms with its hash. -/
lemma count_buckets (order : KeyOrder ℕ) (k x : ℕ) :
    (((buckets order atoms).lookup k).getD []).count x =
      (atomsAt atoms x).countP (·.claimKeyHash = k) := by
  rw [buckets, getD_lookup_pushAll, Finmap.lookup_empty, Option.getD_none, List.nil_append, atomsAt]
  cases hx : atoms.lookup x with
  | none =>
    refine count_bucket_of_notMem ?_
    rw [map_fst_entries, order.mem]
    exact lookup_eq_none_iff.mp hx
  | some as => exact count_bucket (nodup_entries order) (mem_entries.mpr hx)

/-- The hashes of all atoms have buckets. -/
lemma hash_mem_bucketKeys {a : ClaimAtom} (ha : a ∈ atomsAt atoms x) :
    a.claimKeyHash ∈ bucketKeys orders atoms := by
  unfold atomsAt at ha
  cases hx : atoms.lookup x with
  | none =>
    rw [hx] at ha
    cases ha
  | some as =>
    rw [hx] at ha
    rw [bucketKeys, orders.buckets.mem, buckets, mem_keys_pushAll]
    refine Or.inr (List.mem_map.mpr ⟨(a.claimKeyHash, x), ?_, rfl⟩)
    exact List.mem_flatMap.mpr ⟨(x, as), mem_entries.mpr hx, List.mem_map_of_mem ha⟩

/-- The counts over all buckets are sums over the hashes. -/
lemma sum_entries (g : List ℕ → ℕ) :
    ((entries orders.buckets (buckets orders.memories atoms)).map fun e => g e.2).sum =
      ((bucketKeys orders atoms).map fun k =>
        g (((buckets orders.memories atoms).lookup k).getD [])).sum := by
  rw [bucketKeys, ← map_fst_entries, List.map_map]
  refine congrArg List.sum (List.map_congr_left fun e he => ?_)
  rw [Function.comp_apply, mem_entries.mp he]
  rfl

/-- All pairs of all buckets. -/
def bucketPairs (orders : ScanOrders) (atoms : Finmap fun _ : ℕ => List ClaimAtom) : List (ℕ × ℕ) :=
  (entries orders.buckets (buckets orders.memories atoms)).flatMap fun e => Pairs.pairs e.2

lemma count_bucketPairs (z : Sym2 ℕ) : ((bucketPairs orders atoms).map unordered).count z =
    ((bucketKeys orders atoms).map fun k =>
      ((Pairs.pairs (((buckets orders.memories atoms).lookup k).getD [])).map unordered).count z).sum := by
  rw [bucketPairs, List.map_flatMap, List.count_flatMap]
  exact sum_entries fun l => ((Pairs.pairs l).map unordered).count z

/-- Two memories meet once for each two atoms of one hash. -/
lemma count_bucketPairs_of_ne (hne : x ≠ y) : ((bucketPairs orders atoms).map unordered).count s(x, y) =
    (atomsAt atoms x ×ˢ atomsAt atoms y).countP fun p => p.1.claimKeyHash = p.2.claimKeyHash := by
  rw [count_bucketPairs, ← sum_countP_mul (·.claimKeyHash) _ _ (orders.buckets.nodup _)
    fun a ha => hash_mem_bucketKeys ha]
  refine congrArg List.sum (List.map_congr_left fun k _ => ?_)
  rw [count_pairs hne, count_buckets, count_buckets]

/-- A memory meets itself where two of its atoms have one hash. -/
lemma count_bucketPairs_self : ((bucketPairs orders atoms).map unordered).count s(x, x) = 0 ↔
    ((atomsAt atoms x).map (·.claimKeyHash)).Nodup := by
  have hchoose : ∀ n : ℕ, n.choose 2 = 0 ↔ n ≤ 1 := fun n => by
    rw [Nat.choose_eq_zero_iff]
    omega
  rw [count_bucketPairs, List.sum_eq_zero_iff, List.nodup_iff_count_le_one, List.forall_mem_map]
  simp only [count_pairs_self, count_buckets, hchoose]
  have hcount : ∀ k, ((atomsAt atoms x).map (·.claimKeyHash)).count k =
      (atomsAt atoms x).countP (·.claimKeyHash = k) := by
    intro k
    rw [List.count, List.countP_map]
    exact List.countP_congr fun a _ => by simp
  constructor
  · intro h k
    rw [hcount]
    by_cases hk : k ∈ bucketKeys orders atoms
    · exact h k hk
    · have hzero : (atomsAt atoms x).countP (·.claimKeyHash = k) = 0 := by
        refine List.countP_eq_zero.mpr fun a ha heq => hk ?_
        rw [← of_decide_eq_true heq]
        exact hash_mem_bucketKeys ha
      omega
  · intro h k _
    rw [← hcount]
    exact h k

/-! ## Scans and pairwise checks -/

variable {realm : Text} {payloads : List (ℕ × Bytes)} {idx : ContradictionIndex}

/-- The atoms of a memory of a realm. -/
def atomsIn (U : Unicode) (hash : Text → ℕ) (realm : Text) (payloads : List (ℕ × Bytes)) (x : ℕ) :
    List ClaimAtom :=
  ((payloads.find? (·.1 = x)).map fun p => parseClaimAtoms U hash p.1 realm p.2).getD []

/-- The memories that have atoms are there with them. -/
lemma atomsAt_realmAtoms (hids : (payloads.map (·.1)).Nodup) (x : ℕ) :
    atomsAt (realmAtoms U hash realm payloads) x = atomsIn U hash realm payloads x := by
  suffices hfold : ∀ (m : Finmap fun _ : ℕ => List ClaimAtom),
      (payloads.foldl (fun m p =>
        let atoms := parseClaimAtoms U hash p.1 realm p.2
        if atoms = [] then m else m.insert p.1 atoms) m).lookup x =
      if atomsIn U hash realm payloads x = [] then m.lookup x
      else some (atomsIn U hash realm payloads x) by
    rw [atomsAt, realmAtoms, hfold]
    split_ifs with hnil
    · rw [hnil, Finmap.lookup_empty]
      rfl
    · rfl
  induction payloads with
  | nil => exact fun m => rfl
  | cons p ps ih =>
    intro m
    rw [List.map_cons] at hids
    obtain ⟨hnot, hids⟩ := List.nodup_cons.mp hids
    rw [List.foldl_cons, ih hids]
    by_cases hp : p.1 = x
    · have hnone : atomsIn U hash realm ps x = [] := by
        have hfind : ps.find? (·.1 = x) = none := by
          refine List.find?_eq_none.mpr fun q hq heq => hnot ?_
          rw [hp, ← of_decide_eq_true heq]
          exact List.mem_map_of_mem hq
        rw [atomsIn, hfind]
        rfl
      have hself : atomsIn U hash realm (p :: ps) x = parseClaimAtoms U hash p.1 realm p.2 := by
        rw [atomsIn, List.find?_cons_of_pos (by simpa using hp)]
        rfl
      rw [if_pos hnone, hself]
      dsimp only
      split_ifs
      · rfl
      · rw [hp, Finmap.lookup_insert]
    · have hrest : atomsIn U hash realm (p :: ps) x = atomsIn U hash realm ps x := by
        rw [atomsIn, List.find?_cons_of_neg (by simpa using hp), ← atomsIn]
      have hlookup : ∀ as : List ClaimAtom, (m.insert p.1 as).lookup x = m.lookup x := fun as =>
        Finmap.lookup_insert_of_ne _ (Ne.symm hp)
      rw [hrest]
      dsimp only
      split_ifs <;> simp only [hlookup]

lemma exists_of_mem_atomsIn {a : ClaimAtom} (h : a ∈ atomsIn U hash realm payloads x) :
    ∃ content, a ∈ parseClaimAtoms U hash x realm content := by
  unfold atomsIn at h
  cases hfind : payloads.find? (·.1 = x) with
  | none =>
    rw [hfind] at h
    cases h
  | some p =>
    rw [hfind] at h
    have hp : p.1 = x := by simpa using List.find?_some hfind
    exact ⟨p.2, hp ▸ h⟩

/-- Only memories of the realm have atoms. -/
lemma mem_of_mem_atomsIn {a : ClaimAtom} (h : a ∈ atomsIn U hash realm payloads x) :
    x ∈ payloads.map (·.1) := by
  unfold atomsIn at h
  cases hfind : payloads.find? (·.1 = x) with
  | none =>
    rw [hfind] at h
    cases h
  | some p =>
    have hp : p.1 = x := by simpa using List.find?_some hfind
    exact hp ▸ List.mem_map_of_mem (List.mem_of_find?_eq_some hfind)

/-- The best atoms of two memories have a score that is high enough. -/
def Opposing (U : Unicode) (hash : Text → ℕ) (realm : Text) (payloads : List (ℕ × Bytes)) (x y : ℕ) : Prop :=
  ∃ a ∈ atomsIn U hash realm payloads x, ∃ b ∈ atomsIn U hash realm payloads y,
    threshold ≤ (scoreContradiction U a b).total

/-- Two memories share the key of a claim. -/
def SharesKey (U : Unicode) (hash : Text → ℕ) (realm : Text) (payloads : List (ℕ × Bytes)) (x y : ℕ) : Prop :=
  ∃ a ∈ atomsIn U hash realm payloads x, ∃ b ∈ atomsIn U hash realm payloads y, a.claimKey = b.claimKey

instance : Decidable (Opposing U hash realm payloads x y) :=
  inferInstanceAs (Decidable (∃ a ∈ _, ∃ b ∈ _, _))

instance : Decidable (SharesKey U hash realm payloads x y) :=
  inferInstanceAs (Decidable (∃ a ∈ _, ∃ b ∈ _, _))

lemma meets_iff : meets U atoms x y = true ↔
    ∃ a ∈ atomsAt atoms x, ∃ b ∈ atomsAt atoms y, threshold ≤ (scoreContradiction U a b).total := by
  unfold meets atomsAt
  cases atoms.lookup x with
  | none => simp
  | some as =>
    cases atoms.lookup y with
    | none => simp
    | some bs => exact decide_eq_true_iff.trans (le_bestPair threshold_pos)

/-- Opposition does not depend on the order. -/
lemma opposing_comm : Opposing U hash realm payloads x y ↔ Opposing U hash realm payloads y x := by
  have hrooted : ∀ x, ∀ a ∈ atomsIn U hash realm payloads x, a.Rooted := by
    intro x a ha
    obtain ⟨content, ha⟩ := exists_of_mem_atomsIn ha
    exact (rooted_of_mem ha).1
  unfold Opposing
  rw [← le_bestPair threshold_pos, ← le_bestPair threshold_pos]
  exact le_bestPair_comm threshold_pos (hrooted x) (hrooted y)

/-- How often a scan gives two memories. -/
lemma count_scanRealm (hids : (payloads.map (·.1)).Nodup)
    (hlimit : (scanRealm U hash orders idx realm payloads limit ts).2.length < limit) (x y : ℕ) :
    ((scanRealm U hash orders idx realm payloads limit ts).2.map pair).count s(x, y) =
      if Opposing U hash realm payloads x y then
        ((bucketPairs orders (realmAtoms U hash realm payloads)).map unordered).count s(x, y) else 0 := by
  have hmeets : ∀ x y, meets U (realmAtoms U hash realm payloads) x y =
      decide (Opposing U hash realm payloads x y) := by
    intro x y
    rw [Bool.eq_iff_iff, meets_iff, decide_eq_true_iff, atomsAt_realmAtoms hids, atomsAt_realmAtoms hids,
      Opposing]
  unfold scanRealm at hlimit ⊢
  dsimp only at hlimit ⊢
  rw [results_foldlM hlimit, List.map_nil, List.nil_append, ← bucketPairs, count_filter_unordered, hmeets]
  · simp only [decide_eq_true_eq]
  · intro x y
    rw [hmeets, hmeets]
    exact decide_eq_decide.mpr opposing_comm

/-- Lists have two atoms of one hash exactly if one such pair is counted. -/
lemma countP_hash_pos {as bs : List ClaimAtom} :
    0 < ((as ×ˢ bs).countP fun p => p.1.claimKeyHash = p.2.claimKeyHash) ↔
      ∃ a ∈ as, ∃ b ∈ bs, a.claimKeyHash = b.claimKeyHash := by
  rw [List.countP_pos_iff]
  constructor
  · rintro ⟨q, hq, heq⟩
    obtain ⟨ha, hb⟩ := List.mem_product.mp hq
    exact ⟨q.1, ha, q.2, hb, of_decide_eq_true heq⟩
  · rintro ⟨a, ha, b, hb, heq⟩
    exact ⟨(a, b), List.mem_product.mpr ⟨ha, hb⟩, decide_eq_true heq⟩

/-- What is counted once is one entry. -/
lemma eq_of_countP_le_one {α : Type*} {l : List α} {p : α → Bool} (h : l.countP p ≤ 1) {a b : α}
    (ha : a ∈ l) (hpa : p a = true) (hb : b ∈ l) (hpb : p b = true) : a = b := by
  rw [List.countP_eq_length_filter] at h
  have ha' := List.mem_filter.mpr ⟨ha, hpa⟩
  have hb' := List.mem_filter.mpr ⟨hb, hpb⟩
  match hl : l.filter p, h with
  | [], _ =>
    rw [hl] at ha'
    cases ha'
  | [c], _ =>
    rw [hl, List.mem_singleton] at ha' hb'
    rw [ha', hb']

/-- **A scan agrees with pairwise checks** exactly if no memory that opposes itself has two atoms of one
hash, and two memories that oppose each other have at most one pair of atoms of one hash, with one key. -/
theorem scan_agrees_iff (U : Unicode) (hash : Text → ℕ) (orders : ScanOrders) (idx : ContradictionIndex)
    (realm : Text) (payloads : List (ℕ × Bytes)) (limit : ℕ) (ts : ℤ)
    (hids : (payloads.map (·.1)).Nodup)
    (hlimit : (scanRealm U hash orders idx realm payloads limit ts).2.length < limit) :
    (∀ x y, ((scanRealm U hash orders idx realm payloads limit ts).2.map pair).count s(x, y) =
      if x ≠ y ∧ Opposing U hash realm payloads x y ∧ SharesKey U hash realm payloads x y then 1 else 0) ↔
    (∀ x, Opposing U hash realm payloads x x →
      ((atomsIn U hash realm payloads x).map (·.claimKeyHash)).Nodup) ∧
    ∀ x y, x ≠ y → Opposing U hash realm payloads x y →
      ((atomsIn U hash realm payloads x ×ˢ atomsIn U hash realm payloads y).countP
        fun p => p.1.claimKeyHash = p.2.claimKeyHash) ≤ 1 ∧
      ∀ a ∈ atomsIn U hash realm payloads x, ∀ b ∈ atomsIn U hash realm payloads y,
        a.claimKeyHash = b.claimKeyHash → a.claimKey = b.claimKey := by
  have hself : ∀ x, ((scanRealm U hash orders idx realm payloads limit ts).2.map pair).count s(x, x) = 0 ↔
      (Opposing U hash realm payloads x x →
        ((atomsIn U hash realm payloads x).map (·.claimKeyHash)).Nodup) := by
    intro x
    rw [count_scanRealm hids hlimit]
    split_ifs with hopp
    · rw [count_bucketPairs_self, atomsAt_realmAtoms hids]
      exact ⟨fun h _ => h, fun h => h hopp⟩
    · exact iff_of_true rfl fun h => absurd h hopp
  have hother : ∀ {x y}, x ≠ y → Opposing U hash realm payloads x y →
      ((scanRealm U hash orders idx realm payloads limit ts).2.map pair).count s(x, y) =
        (atomsIn U hash realm payloads x ×ˢ atomsIn U hash realm payloads y).countP
          fun p => p.1.claimKeyHash = p.2.claimKeyHash := by
    intro x y hne hopp
    rw [count_scanRealm hids hlimit, if_pos hopp, count_bucketPairs_of_ne hne, atomsAt_realmAtoms hids,
      atomsAt_realmAtoms hids]
  have hhash : ∀ {x y}, SharesKey U hash realm payloads x y → ∃ a ∈ atomsIn U hash realm payloads x,
      ∃ b ∈ atomsIn U hash realm payloads y, a.claimKeyHash = b.claimKeyHash ∧ a.claimKey = b.claimKey := by
    rintro x y ⟨a, ha, b, hb, hkey⟩
    obtain ⟨c, ha'⟩ := exists_of_mem_atomsIn ha
    obtain ⟨d, hb'⟩ := exists_of_mem_atomsIn hb
    exact ⟨a, ha, b, hb, by rw [claimKeyHash_of_mem ha', claimKeyHash_of_mem hb', hkey], hkey⟩
  constructor
  · intro h
    refine ⟨fun x => (hself x).mp ?_, fun x y hne hopp => ?_⟩
    · rw [h, if_neg fun hx => hx.1 rfl]
    · have hcount := h x y
      rw [hother hne hopp] at hcount
      have hle : ((atomsIn U hash realm payloads x ×ˢ atomsIn U hash realm payloads y).countP
          fun p => p.1.claimKeyHash = p.2.claimKeyHash) ≤ 1 := by
        rw [hcount]
        split_ifs <;> omega
      refine ⟨hle, fun a ha b hb heq => ?_⟩
      -- the memories share a key, and have no other atoms of one hash
      have hshare : SharesKey U hash realm payloads x y := by
        by_contra hnot
        rw [if_neg fun hx => hnot hx.2.2] at hcount
        exact absurd (countP_hash_pos.mpr ⟨a, ha, b, hb, heq⟩) (not_lt.mpr hcount.le)
      obtain ⟨a', ha', b', hb', heq', hkey⟩ := hhash hshare
      obtain ⟨rfl, rfl⟩ := Prod.mk.inj (eq_of_countP_le_one hle (List.mem_product.mpr ⟨ha, hb⟩)
        (decide_eq_true heq) (List.mem_product.mpr ⟨ha', hb'⟩) (decide_eq_true heq'))
      exact hkey
  · rintro ⟨hdiff, hpairs⟩ x y
    by_cases hne : x = y
    · subst hne
      rw [if_neg fun hx => hx.1 rfl]
      exact (hself x).mpr (hdiff x)
    · by_cases hopp : Opposing U hash realm payloads x y
      · obtain ⟨hle, hkeys⟩ := hpairs x y hne hopp
        rw [hother hne hopp]
        by_cases hshare : SharesKey U hash realm payloads x y
        · obtain ⟨a, ha, b, hb, heq, -⟩ := hhash hshare
          rw [if_pos ⟨hne, hopp, hshare⟩]
          exact le_antisymm hle (countP_hash_pos.mpr ⟨a, ha, b, hb, heq⟩)
        · rw [if_neg fun hx => hshare hx.2.2]
          by_contra hpos
          obtain ⟨a, ha, b, hb, heq⟩ := countP_hash_pos.mp (Nat.pos_of_ne_zero hpos)
          exact hshare ⟨a, ha, b, hb, hkeys a ha b hb heq⟩
      · rw [count_scanRealm hids hlimit, if_neg hopp, if_neg fun hx => hopp hx.2.1]

/-- A memory with some text. -/
def withText (memoryId : ℕ) (text : String) : ℕ × Bytes := (memoryId, text.toUTF8.data.toList)

/-- Beliefs, and their corrections. -/
def twoMemories (beliefs corrections : String) : List (ℕ × Bytes) :=
  [withText 1 beliefs, withText 2 corrections]

/-- Two beliefs, and two corrections of which one is of the first belief. -/
def correctedOnce : List (ℕ × Bytes) :=
  twoMemories "[BELIEF] a\n[BELIEF] b" "[CORRECTION] a\n[CORRECTION] c"

/-- They are found once, and no memory is found with itself. -/
theorem scan_of_two :
    let found := ((scanRealm Unicode.ascii fnv1a ⟨upwards, upwards⟩ new [] correctedOnce 10 0).2.map pair)
    found.count s(1, 2) = 1 ∧ found.count s(1, 1) = 0 := by
  have hexact := (scan_agrees_iff Unicode.ascii fnv1a ⟨upwards, upwards⟩ new [] correctedOnce 10 0
    (by decide) (by decide +kernel)).mpr ?_
  · exact ⟨(hexact 1 2).trans (if_pos (by decide +kernel)), (hexact 1 1).trans (if_neg fun h => h.1 rfl)⟩
  · have hnodup : ∀ x ∈ [1, 2],
        ((atomsIn Unicode.ascii fnv1a [] correctedOnce x).map (·.claimKeyHash)).Nodup := by
      decide +kernel
    have hpairs : ∀ x ∈ [1, 2], ∀ y ∈ [1, 2], x ≠ y →
        ((atomsIn Unicode.ascii fnv1a [] correctedOnce x ×ˢ
          atomsIn Unicode.ascii fnv1a [] correctedOnce y).countP
          fun p => p.1.claimKeyHash = p.2.claimKeyHash) ≤ 1 ∧
        ∀ a ∈ atomsIn Unicode.ascii fnv1a [] correctedOnce x,
          ∀ b ∈ atomsIn Unicode.ascii fnv1a [] correctedOnce y,
          a.claimKeyHash = b.claimKeyHash → a.claimKey = b.claimKey := by
      decide +kernel
    refine ⟨fun x hopp => ?_, fun x y hne hopp => ?_⟩
    · obtain ⟨a, ha, -⟩ := hopp
      exact hnodup x (mem_of_mem_atomsIn ha)
    · obtain ⟨a, ha, b, hb, -⟩ := hopp
      exact hpairs x (mem_of_mem_atomsIn ha) y (mem_of_mem_atomsIn hb) hne

/-- Two memories with two claims each are found twice. -/
theorem scan_twice : ¬∀ x y, ((scanRealm Unicode.ascii fnv1a ⟨upwards, upwards⟩ new []
    (twoMemories "[BELIEF] a\n[BELIEF] b" "[CORRECTION] a\n[CORRECTION] b") 10 0).2.map
      pair).count s(x, y) =
    if x ≠ y ∧ Opposing Unicode.ascii fnv1a []
        (twoMemories "[BELIEF] a\n[BELIEF] b" "[CORRECTION] a\n[CORRECTION] b") x y ∧
      SharesKey Unicode.ascii fnv1a []
        (twoMemories "[BELIEF] a\n[BELIEF] b" "[CORRECTION] a\n[CORRECTION] b") x y
    then 1 else 0 := by
  intro h
  exact absurd (h 1 2) (by decide +kernel)

end ContradictionIndex

end ChittaField.Claims
