import ChittaField.Organs.Hdc

/-!
# Bundles of realms

The bundle of a realm says how often every bit is set in the vectors of its members.  It is not counted
again: an insertion adds a vector to it, and a removal takes one out.  `bundles_exact` says that the
bundles are the sums over the members as long as insertions are of memories that the index does not
have, removals name the realm that the memory is in, and no counter stops at its greatest number.
-/

namespace ChittaField

/-! ## Bits of vectors -/

namespace Hdc

variable {hv hv' : HdcVec} {wi : Fin D} {b : ℕ}

lemma bit_eq (hv : HdcVec) (wi : Fin D) (b : ℕ) :
    bit hv wi b = (hv wi).toBitVec.getLsbD (b % 64) := by
  have hone : ∀ w : BitVec 64, (w &&& 1#64 == 1#64) = w.getLsbD 0 := by
    intro w
    rw [Bool.eq_iff_iff, beq_iff_eq]
    constructor
    · intro h
      have hbit := congrArg (BitVec.getLsbD · 0) h
      simpa using hbit
    · intro h
      refine BitVec.eq_of_getLsbD_eq fun i hi => ?_
      rcases Nat.eq_zero_or_pos i with rfl | hpos
      · simpa using h
      · simp [BitVec.getLsbD_one, hpos.ne']
  have hword : bit hv wi b =
      ((hv wi).toBitVec >>> (b % 64) &&& 1#64 == 1#64) := by
    rw [Bool.eq_iff_iff, bit, beq_iff_eq, beq_iff_eq, ← UInt64.toBitVec_inj]
    simp
  rw [hword, hone]
  simp

/-- Vectors with the same bits are the same. -/
lemma ext_bit (h : ∀ wi, ∀ b < 64, bit hv wi b = bit hv' wi b) : hv = hv' := by
  refine funext fun wi => UInt64.toBitVec_inj.mp (BitVec.eq_of_getLsbD_eq fun i hi => ?_)
  have hbit := h wi i hi
  rwa [bit_eq, bit_eq, Nat.mod_eq_of_lt hi] at hbit

/-- A vector has the bits that it was made of. -/
lemma bit_ofBits (bits : Fin D → ℕ → Bool) (hb : b < 64) : bit (ofBits bits) wi b = bits wi b := by
  have hfold : ∀ n ≤ 64, ((List.range n).foldl (fun (out : UInt64) b =>
      if bits wi b then out ||| (1 <<< UInt64.ofNat b) else out) 0).toBitVec.getLsbD b =
      (decide (b < n) && bits wi b) := by
    intro n hn
    induction n with
    | zero => simp
    | succ n ih =>
      rw [List.range_succ, List.foldl_concat]
      have hold := ih (by omega)
      have hmod : n % 18446744073709551616 % 64 = n := by omega
      by_cases hbn : b = n
      · subst hbn
        cases hbit : bits wi b with
        | false => simpa [hbit] using hold
        | true => simp [hmod, hb]
      · have hlt : decide (b < n + 1) = decide (b < n) := decide_eq_decide.mpr (by omega)
        rw [hlt, ← hold]
        cases hbit : bits wi n with
        | false => simp
        | true =>
          have hone : (1#64 <<< n).getLsbD b = false := by
            rw [BitVec.getLsbD_shiftLeft, BitVec.getLsbD_one]
            simp
            omega
          simp [hmod, hone]
  rw [bit_eq, Nat.mod_eq_of_lt hb]
  refine (hfold 64 le_rfl).trans ?_
  rw [decide_eq_true hb, Bool.true_and]

/-- Vectors made of the same bits are the same. -/
lemma ofBits_congr {bits bits' : Fin D → ℕ → Bool} (h : ∀ wi, ∀ b < 64, bits wi b = bits' wi b) :
    ofBits bits = ofBits bits' :=
  ext_bit fun wi b hb => by rw [bit_ofBits bits hb, bit_ofBits bits' hb, h wi b hb]

end Hdc

/-! ## The vector of a realm -/

/-- The bits that are set in most of the vectors. -/
def RealmBundle.toHv (r : RealmBundle) : HdcVec :=
  if r.n = 0 then fun _ => 0 else Hdc.ofBits fun wi b => r.n / 2 + 1 ≤ r.counts wi b

/-- A bundle is the sum of some vectors, as far as its counters go. -/
structure RealmBundle.Sums (r : RealmBundle) (vecs : List HdcVec) : Prop where
  n : r.n = vecs.length
  counts : ∀ wi b, r.counts wi b = min (vecs.countP fun hv => Hdc.bit hv wi b) 65535

namespace RealmBundle

lemma sums_default : RealmBundle.default.Sums [] := ⟨rfl, fun _ _ => rfl⟩

lemma Sums.add {r : RealmBundle} {vecs : List HdcVec} (h : r.Sums vecs) (hv : HdcVec) :
    (r.add hv).Sums (vecs ++ [hv]) := by
  refine ⟨?_, fun wi b => ?_⟩
  · rw [List.length_append, List.length_singleton, ← h.n]
    rfl
  · rw [RealmBundle.add, List.countP_append, List.countP_singleton]
    dsimp only
    rw [h.counts]
    split_ifs <;> omega

/-- The majority of the vectors is their bundle. -/
lemma Sums.toHv_eq {r : RealmBundle} {vecs : List HdcVec} (h : r.Sums vecs)
    (hlen : vecs.length < 2 ^ 32) : r.toHv = Hdc.bundle vecs := by
  unfold RealmBundle.toHv Hdc.bundle
  rw [h.n, Nat.mod_eq_of_lt hlen]
  cases vecs with
  | nil => rfl
  | cons =>
    rw [if_neg (by simp), if_neg (by simp)]
    exact Hdc.ofBits_congr fun wi b _ => by rw [h.counts]

end RealmBundle

namespace HdcStore

variable (h : HdcStore) (realm : String)

def realmHv : Option HdcVec := (h.realmBundles realm).map RealmBundle.toHv

/-- The members of a realm; none, if it is not known. -/
def membersOf : Finset MemoryId := (h.realmMembers realm).getD ∅

/-- The bundle of a realm; empty, if it is not known. -/
def bundleOf : RealmBundle := (h.realmBundles realm).getD .default

/-- The members of a realm whose vectors have a bit. -/
def withBit (wi : Fin Hdc.D) (b : ℕ) : Finset MemoryId :=
  (h.membersOf realm).filter fun id => (h.memories id).any (Hdc.bit · wi b)

end HdcStore

/-- The bundle of a realm is the sum of its members. -/
structure BundleExact (h : HdcStore) (realm : String) : Prop where
  n : (h.bundleOf realm).n = (h.membersOf realm).card
  counts : ∀ wi b, (h.bundleOf realm).counts wi b = (h.withBit realm wi b).card
  hv : ∀ ids : List MemoryId, ids.Nodup → (∀ id, id ∈ ids ↔ id ∈ h.membersOf realm) →
    (h.realmHv realm).getD (fun _ => 0) = Hdc.bundle (ids.filterMap h.memories)

/-- What happens to the index. -/
inductive HdcStep where
  | insert (id : MemoryId) (text realm : String)
  | remove (id : MemoryId) (realm : String)

/-- One step. -/
def HdcStore.live (T : Casing) (h : HdcStore) : HdcStep → HdcStore × List Unit
  | .insert id text realm => (h.insert T id text realm, [])
  | .remove id realm => (h.remove id realm, [])

/-- A memory is inserted that the index does not have, and no counter is at its greatest number; or a
memory is removed from its realm. -/
def HdcStepOk (T : Casing) (h : HdcStore) : HdcStep → Prop
  | .insert id text realm => h.memories id = none ∧ (h.membersOf realm).card < 2 ^ 32 - 1 ∧
      ∀ wi b, Hdc.bit (Hdc.encode T text) wi b = true → (h.withBit realm wi b).card < 65535
  | .remove id realm => (h.memories id).isSome → id ∈ h.membersOf realm

/-! ## Steps -/

/-- What is kept along a run. -/
structure HdcSums (h : HdcStore) : Prop where
  stored : ∀ realm, ∀ id ∈ h.membersOf realm, (h.memories id).isSome
  alone : ∀ realm realm', ∀ id ∈ h.membersOf realm, id ∈ h.membersOf realm' → realm = realm'
  small : ∀ realm, (h.membersOf realm).card < 2 ^ 32
  n : ∀ realm, (h.bundleOf realm).n = (h.membersOf realm).card
  counts : ∀ realm wi b, (h.bundleOf realm).counts wi b = (h.withBit realm wi b).card
  bounded : ∀ realm wi b, (h.withBit realm wi b).card ≤ 65535

variable {T : Casing} {h : HdcStore} {realm : String}

lemma hdcSums_new : HdcSums .new := by
  refine ⟨fun _ _ hid => ?_, fun _ _ _ hid => ?_, fun _ => ?_, fun _ => rfl, fun _ _ _ => rfl,
    fun _ _ _ => Nat.zero_le _⟩
  · exact absurd hid (Finset.notMem_empty _)
  · exact absurd hid (Finset.notMem_empty _)
  · exact Nat.two_pow_pos 32

/-- The bundle of a realm is the majority of the vectors of its members, in any order. -/
lemma HdcSums.realmHv_eq (hsums : HdcSums h) {ids : List MemoryId} (hnodup : ids.Nodup)
    (hids : ∀ id, id ∈ ids ↔ id ∈ h.membersOf realm) :
    (h.realmHv realm).getD (fun _ => 0) = Hdc.bundle (ids.filterMap h.memories) := by
  have hmembers : ids.toFinset = h.membersOf realm :=
    Finset.ext fun id => List.mem_toFinset.trans (hids id)
  have hcard : ids.length = (h.membersOf realm).card := by
    rw [← hmembers, List.toFinset_card_of_nodup hnodup]
  have hlength : (ids.filterMap h.memories).length = ids.length := by
    rw [List.length_filterMap_eq_countP, List.countP_eq_length]
    exact fun id hid => hsums.stored realm id ((hids id).mp hid)
  have hcount : ∀ wi b, (ids.filterMap h.memories).countP (Hdc.bit · wi b) =
      (h.withBit realm wi b).card := by
    intro wi b
    rw [List.countP_filterMap, HdcStore.withBit, ← hmembers, List.countP_eq_length_filter,
      ← List.toFinset_card_of_nodup (hnodup.filter _)]
    congr 1
    ext id
    cases hid : h.memories id <;> simp [hid]
  have hsum : (h.bundleOf realm).Sums (ids.filterMap h.memories) := by
    refine ⟨?_, fun wi b => ?_⟩
    · rw [hsums.n, hlength, hcard]
    · rw [hsums.counts, ← hcount wi b, min_eq_left]
      exact (hcount wi b).trans_le (hsums.bounded realm wi b)
  have hto : (h.realmHv realm).getD (fun _ => 0) = (h.bundleOf realm).toHv := by
    unfold HdcStore.realmHv HdcStore.bundleOf
    cases h.realmBundles realm <;> rfl
  rw [hto]
  exact hsum.toHv_eq (by rw [hlength, hcard]; exact hsums.small realm)

lemma HdcSums.bundleExact (hsums : HdcSums h) (realm : String) : BundleExact h realm :=
  ⟨hsums.n realm, hsums.counts realm, fun _ hnodup hids => hsums.realmHv_eq hnodup hids⟩

section Insert

variable {id : MemoryId} {text : String}

lemma membersOf_insert (r : String) : (h.insert T id text realm).membersOf r =
    if r = realm then Insert.insert id (h.membersOf realm) else h.membersOf r := by
  unfold HdcStore.membersOf HdcStore.insert
  by_cases hr : r = realm
  · subst hr
    simp
  · simp [hr]

lemma bundleOf_insert (r : String) : (h.insert T id text realm).bundleOf r =
    if r = realm then (h.bundleOf realm).add (Hdc.encode T text) else h.bundleOf r := by
  unfold HdcStore.bundleOf HdcStore.insert
  by_cases hr : r = realm
  · subst hr
    simp
  · simp [hr]

/-- An insertion of a memory that is in no realm adds it to the members with its bits. -/
lemma withBit_insert (hout : ∀ r, id ∉ h.membersOf r) (r : String) (wi : Fin Hdc.D) (b : ℕ) :
    (h.insert T id text realm).withBit r wi b =
      if r = realm ∧ Hdc.bit (Hdc.encode T text) wi b = true then
        Insert.insert id (h.withBit realm wi b)
      else h.withBit r wi b := by
  have hsame : ∀ r, (h.membersOf r).filter (fun x =>
      (Function.update h.memories id (some (Hdc.encode T text)) x).any (Hdc.bit · wi b)) =
      h.withBit r wi b := by
    intro r
    refine Finset.filter_congr fun x hx => ?_
    have hne : x ≠ id := fun heq => hout r (heq ▸ hx)
    rw [Function.update_of_ne hne]
  unfold HdcStore.withBit
  rw [membersOf_insert]
  by_cases hr : r = realm
  · subst hr
    rw [if_pos rfl, Finset.filter_insert]
    simp only [HdcStore.insert, Function.update_self, Option.any_some, true_and]
    exact if_congr Iff.rfl (congrArg _ (hsame r)) (hsame r)
  · rw [if_neg hr, if_neg fun hand => hr hand.1]
    exact hsame r

lemma HdcSums.insert (hsums : HdcSums h) (hok : HdcStepOk T h (.insert id text realm)) :
    HdcSums (h.insert T id text realm) := by
  obtain ⟨hnew, hcard, hroom⟩ := hok
  have hout : ∀ r, id ∉ h.membersOf r := by
    intro r hid
    have hstored := hsums.stored r id hid
    rw [hnew] at hstored
    cases hstored
  refine ⟨fun r x hx => ?_, fun r r' x hx hx' => ?_, fun r => ?_, fun r => ?_, fun r wi b => ?_,
    fun r wi b => ?_⟩
  · by_cases hxid : x = id
    · subst hxid
      simp [HdcStore.insert]
    · rw [membersOf_insert] at hx
      have hold : x ∈ h.membersOf r := by
        split_ifs at hx with hr
        · exact hr ▸ (Finset.mem_insert.mp hx).resolve_left hxid
        · exact hx
      simpa [HdcStore.insert, hxid] using hsums.stored r x hold
  · rw [membersOf_insert] at hx hx'
    split_ifs at hx hx' with hr hr' hr'
    · rw [hr, hr']
    · rcases Finset.mem_insert.mp hx with rfl | hx
      · exact absurd hx' (hout r')
      · exact hr.trans (hsums.alone _ _ x hx hx')
    · rcases Finset.mem_insert.mp hx' with rfl | hx'
      · exact absurd hx (hout r)
      · exact (hsums.alone _ _ x hx hx').trans hr'.symm
    · exact hsums.alone r r' x hx hx'
  · rw [membersOf_insert]
    split_ifs
    · rw [Finset.card_insert_of_notMem (hout realm)]
      omega
    · exact hsums.small r
  · rw [membersOf_insert, bundleOf_insert]
    split_ifs
    · rw [Finset.card_insert_of_notMem (hout realm), ← hsums.n]
      rfl
    · exact hsums.n r
  · rw [withBit_insert hout, bundleOf_insert]
    have hnot : id ∉ h.withBit realm wi b := fun hid => hout realm (Finset.mem_of_mem_filter _ hid)
    by_cases hr : r = realm
    · subst hr
      rw [if_pos rfl, RealmBundle.add]
      dsimp only
      rw [hsums.counts]
      by_cases hset : Hdc.bit (Hdc.encode T text) wi b = true
      · have hlt := hroom wi b hset
        rw [if_pos hset, if_pos ⟨rfl, hset⟩, Finset.card_insert_of_notMem hnot]
        omega
      · rw [if_neg hset, if_neg fun hand => hset hand.2]
    · rw [if_neg hr, if_neg fun hand => hr hand.1]
      exact hsums.counts r wi b
  · rw [withBit_insert hout]
    split_ifs with hset
    · exact (Finset.card_insert_le _ _).trans (hroom wi b hset.2)
    · exact hsums.bounded r wi b

end Insert

section Remove

variable {id : MemoryId} {hv : HdcVec}

lemma membersOf_remove (hsome : h.memories id = some hv) (r : String) :
    (h.remove id realm).membersOf r =
      if r = realm then (h.membersOf realm).erase id else h.membersOf r := by
  unfold HdcStore.membersOf HdcStore.remove
  rw [hsome]
  dsimp only
  by_cases hr : r = realm
  · subst hr
    rw [Maps.modifyAt_self, if_pos rfl]
    cases h.realmMembers r <;> simp
  · rw [Maps.modifyAt_of_ne hr, if_neg hr]

lemma bundleOf_remove (hsome : h.memories id = some hv) (r : String) :
    (h.remove id realm).bundleOf r =
      if r = realm then (h.bundleOf realm).remove hv else h.bundleOf r := by
  unfold HdcStore.bundleOf HdcStore.remove
  rw [hsome]
  dsimp only
  by_cases hr : r = realm
  · subst hr
    rw [Maps.modifyAt_self, if_pos rfl]
    cases h.realmBundles r <;> rfl
  · rw [Maps.modifyAt_of_ne hr, if_neg hr]

/-- A removal of a memory from the only realm it is in takes it out of the members with its bits. -/
lemma withBit_remove (hsome : h.memories id = some hv) (honly : ∀ r, id ∈ h.membersOf r → r = realm)
    (r : String) (wi : Fin Hdc.D) (b : ℕ) :
    (h.remove id realm).withBit r wi b = (h.withBit r wi b).erase id := by
  unfold HdcStore.withBit
  rw [membersOf_remove hsome]
  have hmemories : (h.remove id realm).memories = Function.update h.memories id none := by
    unfold HdcStore.remove
    rw [hsome]
  rw [hmemories]
  ext x
  by_cases hx : x = id
  · subst hx
    simp
  · by_cases hr : r = realm
    · subst hr
      simp [hx]
    · simp [hx, hr]

lemma HdcSums.remove (hsums : HdcSums h) (hok : HdcStepOk T h (.remove id realm)) :
    HdcSums (h.remove id realm) := by
  cases hsome : h.memories id with
  | none =>
    have hsame : h.remove id realm = { h with mutations := h.mutations + 1 } := by
      unfold HdcStore.remove
      rw [hsome]
    rw [hsame]
    exact ⟨hsums.stored, hsums.alone, hsums.small, hsums.n, hsums.counts, hsums.bounded⟩
  | some hv =>
    have hmem : id ∈ h.membersOf realm := hok (by rw [hsome]; rfl)
    have honly : ∀ r, id ∈ h.membersOf r → r = realm := fun r hr => hsums.alone r realm id hr hmem
    have hmemories : (h.remove id realm).memories = Function.update h.memories id none := by
      unfold HdcStore.remove
      rw [hsome]
    have hsub : ∀ r x, x ∈ (h.remove id realm).membersOf r → x ∈ h.membersOf r ∧ x ≠ id := by
      intro r x hx
      rw [membersOf_remove hsome] at hx
      split_ifs at hx with hr
      · exact ⟨hr ▸ Finset.mem_of_mem_erase hx, Finset.ne_of_mem_erase hx⟩
      · refine ⟨hx, ?_⟩
        rintro rfl
        exact hr (honly r hx)
    have hpos : 0 < (h.membersOf realm).card := Finset.card_pos.mpr ⟨id, hmem⟩
    refine ⟨fun r x hx => ?_, fun r r' x hx hx' => ?_, fun r => ?_, fun r => ?_, fun r wi b => ?_,
      fun r wi b => ?_⟩
    · obtain ⟨hold, hne⟩ := hsub r x hx
      rw [hmemories, Function.update_of_ne hne]
      exact hsums.stored r x hold
    · exact hsums.alone r r' x (hsub r x hx).1 (hsub r' x hx').1
    · rw [membersOf_remove hsome]
      split_ifs
      · exact (Finset.card_erase_le).trans_lt (hsums.small realm)
      · exact hsums.small r
    · rw [membersOf_remove hsome, bundleOf_remove hsome]
      split_ifs
      · rw [Finset.card_erase_of_mem hmem, RealmBundle.remove, hsums.n, if_neg hpos.ne']
      · exact hsums.n r
    · rw [withBit_remove hsome honly, bundleOf_remove hsome]
      by_cases hr : r = realm
      · subst hr
        rw [if_pos rfl, RealmBundle.remove, hsums.n, if_neg hpos.ne']
        dsimp only
        rw [hsums.counts]
        have hbit : id ∈ h.withBit r wi b ↔ Hdc.bit hv wi b = true := by
          simp [HdcStore.withBit, hmem, hsome]
        by_cases hset : Hdc.bit hv wi b = true
        · rw [if_pos hset, Finset.card_erase_of_mem (hbit.mpr hset)]
        · rw [if_neg hset, Finset.erase_eq_of_notMem fun hid => hset (hbit.mp hid)]
      · have hnot : id ∉ h.withBit r wi b := fun hid => hr (honly r (Finset.mem_of_mem_filter _ hid))
        rw [if_neg hr, Finset.erase_eq_of_notMem hnot]
        exact hsums.counts r wi b
    · rw [withBit_remove hsome honly]
      exact Finset.card_erase_le.trans (hsums.bounded r wi b)

end Remove

/-! ## Runs -/

lemma HdcSums.live (hsums : HdcSums h) (step : HdcStep) (hok : HdcStepOk T h step) :
    HdcSums (h.live T step).1 := by
  cases step with
  | insert => exact hsums.insert hok
  | remove => exact hsums.remove hok

/-- Behind every run whose steps insert new memories, remove memories from their realms and stop no
counter, the bundle of every realm is the sum of its members. -/
theorem bundles_exact (T : Casing) (steps : List HdcStep)
    (hall : Replayed.All (HdcStore.live T) (HdcStepOk T) .new steps) (realm : String) :
    BundleExact (Replayed.run (HdcStore.live T) .new steps).1 realm :=
  (Replayed.invariant_run HdcSums (fun _ step hsums hok => hsums.live step hok) hdcSums_new
    hall).bundleExact realm

/-- Two memories of a realm, of which one is removed again. -/
theorem bundles_exact_two :
    let h := (Replayed.run (HdcStore.live .ascii) .new
      [.insert 1 "one" "r", .insert 2 "two" "r", .remove 1 "r"]).1
    h.membersOf "r" = {2} ∧ BundleExact h "r" := by
  refine ⟨by decide, bundles_exact .ascii [.insert 1 "one" "r", .insert 2 "two" "r", .remove 1 "r"]
    ⟨⟨rfl, by decide, fun wi b _ => ?_⟩, ⟨rfl, by decide, fun wi b _ => ?_⟩, fun _ => ?_, trivial⟩ "r"⟩
  · exact Nat.zero_lt_succ _
  · exact (Finset.card_filter_le _ _).trans_lt (by decide)
  · decide

/-- A memory that is inserted twice is counted twice. -/
theorem inserted_twice : ¬BundleExact (Replayed.run (HdcStore.live .ascii) .new
    [.insert 1 "one" "r", .insert 1 "two" "r"]).1 "r" := by
  intro h
  exact absurd h.n (by decide)

end ChittaField
