import ChittaField.Log.Directory

/-!
# Instance ids

An instance id has the seconds since 2020 in its high bits and a random suffix in the low ones, and
memory ids have the instance id in their high bits.

The seconds have 20 bits, which is enough for twelve days.  Ids are ordered in time, and memory ids are
apart, exactly within the rounds of these bits: `instance_ids_ordered_iff`.
-/

namespace ChittaField

/-! ## The ids -/

/-- 2020-01-01. -/
def epoch2020 : UInt64 := 1577836800

/-- The id of an instance that starts at a time in seconds, if the clock is behind 1970, with two bytes
that are random, if these can be read. -/
def newInstanceId (now : Option UInt64) (buf : Option (UInt8 × UInt8)) : UInt32 :=
  let secs := (now.map fun d => if d < epoch2020 then 0 else d - epoch2020).getD 0
  let tsBits := (secs &&& 0xFFFFF).toUInt32
  let randBits :=
    (buf.map fun b => (b.1.toUInt16 ||| b.2.toUInt16 <<< (8 : UInt16)).toUInt32 &&& 0xFFF).getD 0
  (tsBits <<< 12) ||| randBits

structure MemoryIdAllocator where
  next : UInt64

namespace MemoryIdAllocator

/-- The allocator of an instance. -/
def withInstance (instanceId : UInt32) : MemoryIdAllocator := ⟨(instanceId.toUInt64 <<< 32) ||| 1⟩

/-- An id, and what is left. -/
def nextId (a : MemoryIdAllocator) : UInt64 × MemoryIdAllocator := (a.next, ⟨a.next + 1⟩)

/-- The ids of some calls. -/
def issued (a : MemoryIdAllocator) : ℕ → List UInt64
  | 0 => []
  | n + 1 => a.nextId.1 :: issued a.nextId.2 n

end MemoryIdAllocator

/-! ## The bits of the ids -/

/-- The seconds since 2020, as far as they are in an id. -/
def roundSeconds (t : UInt64) : ℕ := (t.toNat - 1577836800) % 2 ^ 20

/-- A number in front of some bits. -/
lemma shiftLeft_or {a b : ℕ} {n : ℕ} (hb : b < 2 ^ n) : a <<< n ||| b = a * 2 ^ n + b := by
  rw [← Nat.shiftLeft_add_eq_or_of_lt hb, Nat.shiftLeft_eq]

/-- The random suffix of an id. -/
def suffix (buf : Option (UInt8 × UInt8)) : ℕ :=
  ((buf.map fun b => (b.1.toUInt16 ||| b.2.toUInt16 <<< (8 : UInt16)).toUInt32 &&& 0xFFF).getD 0).toNat

lemma suffix_lt (buf : Option (UInt8 × UInt8)) : suffix buf < 2 ^ 12 := by
  cases buf with
  | none => decide
  | some b =>
    change ((b.1.toUInt16 ||| b.2.toUInt16 <<< (8 : UInt16)).toUInt32 &&& 0xFFF).toNat < 2 ^ 12
    rw [UInt32.toNat_and]
    exact lt_of_le_of_lt Nat.and_le_right (by decide)

/-- The seconds that have gone by since 2020. -/
lemma toNat_secs (t : UInt64) :
    (if t < epoch2020 then 0 else t - epoch2020).toNat = t.toNat - 1577836800 := by
  have hepoch : epoch2020.toNat = 1577836800 := rfl
  split_ifs with h
  · rw [UInt64.lt_iff_toNat_lt, hepoch] at h
    exact (Nat.sub_eq_zero_of_le h.le).symm
  · rw [UInt64.lt_iff_toNat_lt, hepoch, not_lt] at h
    rw [UInt64.toNat_sub_of_le _ _ (UInt64.le_iff_toNat_le.mpr (hepoch ▸ h)), hepoch]

lemma toNat_newInstanceId (t : UInt64) (buf : Option (UInt8 × UInt8)) :
    (newInstanceId (some t) buf).toNat = roundSeconds t * 2 ^ 12 + suffix buf := by
  have hbits : (((if t < epoch2020 then 0 else t - epoch2020) &&& 0xFFFFF).toUInt32).toNat =
      roundSeconds t := by
    rw [UInt64.toNat_toUInt32, UInt64.toNat_and, toNat_secs]
    change ((t.toNat - 1577836800) &&& 2 ^ 20 - 1) % 2 ^ 32 = _
    rw [Nat.and_two_pow_sub_one_eq_mod, roundSeconds]
    omega
  have hround : roundSeconds t < 2 ^ 20 := Nat.mod_lt _ (by decide)
  rw [newInstanceId, UInt32.toNat_or, UInt32.toNat_shiftLeft]
  dsimp only [Option.map_some, Option.getD_some]
  rw [hbits, ← suffix]
  change (roundSeconds t <<< 12 % 2 ^ 32) ||| suffix buf = _
  rw [Nat.mod_eq_of_lt (by rw [Nat.shiftLeft_eq]; omega), shiftLeft_or (suffix_lt buf)]

lemma toNat_withInstance (instanceId : UInt32) :
    (MemoryIdAllocator.withInstance instanceId).next.toNat = instanceId.toNat * 2 ^ 32 + 1 := by
  have hlt : instanceId.toNat < 2 ^ 32 := instanceId.toNat_lt
  rw [MemoryIdAllocator.withInstance, UInt64.toNat_or, UInt64.toNat_shiftLeft]
  change (instanceId.toNat <<< 32 % 2 ^ 64) ||| 1 = _
  rw [Nat.mod_eq_of_lt (by rw [Nat.shiftLeft_eq]; omega), shiftLeft_or (by decide)]

namespace MemoryIdAllocator

/-- The ids of calls that do not go round are numbered through. -/
lemma toNat_of_mem_issued {n : ℕ} {a : MemoryIdAllocator} {x : UInt64} (hx : x ∈ a.issued n)
    (hroom : a.next.toNat + n < 2 ^ 64) : a.next.toNat ≤ x.toNat ∧ x.toNat < a.next.toNat + n := by
  induction n generalizing a with
  | zero => cases hx
  | succ n ih =>
    rcases List.mem_cons.mp hx with rfl | hx
    · exact ⟨le_refl _, Nat.lt_add_of_pos_right n.succ_pos⟩
    · have hnext : a.nextId.2.next.toNat = a.next.toNat + 1 := by
        change (a.next + 1).toNat = _
        rw [UInt64.toNat_add]
        change (a.next.toNat + 1) % 2 ^ 64 = _
        omega
      obtain ⟨hle, hlt⟩ := ih hx (by omega)
      omega

/-- An instance issues ids that have its own id in front. -/
lemma div_of_mem_issued {n : ℕ} {instanceId : UInt32} {x : UInt64} (hn : n < 2 ^ 32 - 1)
    (hx : x ∈ (withInstance instanceId).issued n) : x.toNat / 2 ^ 32 = instanceId.toNat := by
  have hlt : instanceId.toNat < 2 ^ 32 := instanceId.toNat_lt
  have hnext := toNat_withInstance instanceId
  obtain ⟨hge, hlt'⟩ := toNat_of_mem_issued hx (by omega)
  omega

end MemoryIdAllocator

/-! ## Rounds of the seconds -/

/-- Whatever the random suffixes, the ids of two times are in order, and so are the names of their
segments. -/
def CreatedInOrder (t t' : UInt64) : Prop :=
  ∀ buf buf', newInstanceId (some t) buf < newInstanceId (some t') buf' ∧
    ∀ n n', segmentPath (newInstanceId (some t) buf).toNat n <
      segmentPath (newInstanceId (some t') buf').toNat n'

/-- Whatever the random suffixes, instances of two times issue no memory id twice. -/
def Partitioned (t t' : UInt64) : Prop :=
  ∀ buf buf' n n', n < 2 ^ 32 - 1 → n' < 2 ^ 32 - 1 →
    ((MemoryIdAllocator.withInstance (newInstanceId (some t) buf)).issued n).Disjoint
      ((MemoryIdAllocator.withInstance (newInstanceId (some t') buf')).issued n')

/-- The segments of a smaller id come first. -/
lemma segmentPath_lt_of_lt {inst inst' : InstanceId} (h : inst < inst') (hlt : inst' < 2 ^ 32) (n n' : ℕ) :
    segmentPath inst n < segmentPath inst' n' := by
  have hhex : instHex inst < instHex inst' :=
    Positional.map_digits_lt (by decide) (fun i j hij hj => digitChar_lt hij hj) h hlt
  rw [segmentPath, segmentPath, List.append_assoc, List.append_assoc]
  exact append_lt_append hhex (by rw [length_instHex, length_instHex]) _ _

lemma createdInOrder_of_lt {t t' : UInt64} (h : roundSeconds t < roundSeconds t') : CreatedInOrder t t' := by
  intro buf buf'
  have hlt : (newInstanceId (some t) buf).toNat < (newInstanceId (some t') buf').toNat := by
    have hsuffix := suffix_lt buf
    rw [toNat_newInstanceId, toNat_newInstanceId]
    omega
  exact ⟨UInt32.lt_iff_toNat_lt.mpr hlt, segmentPath_lt_of_lt hlt (UInt32.toNat_lt _)⟩

/-- The greatest suffix at one time and the smallest at another one. -/
lemma lt_of_createdInOrder {t t' : UInt64} (h : CreatedInOrder t t') : roundSeconds t < roundSeconds t' := by
  have hlt := UInt32.lt_iff_toNat_lt.mp (h (some (255, 255)) none).1
  have hgreatest : suffix (some (255, 255)) = 4095 := by decide
  have hsmallest : suffix none = 0 := rfl
  rw [toNat_newInstanceId, toNat_newInstanceId, hgreatest, hsmallest] at hlt
  omega

lemma partitioned_iff (t t' : UInt64) : Partitioned t t' ↔ roundSeconds t ≠ roundSeconds t' := by
  constructor
  · intro h heq
    have hsame : newInstanceId (some t) none = newInstanceId (some t') none := by
      rw [← UInt32.toNat_inj, toNat_newInstanceId, toNat_newInstanceId, heq]
    refine h none none 1 1 (by decide) (by decide) ?_ List.mem_cons_self
    rw [hsame]
    exact List.mem_cons_self
  · intro hne buf buf' n n' hn hn' x hx hx'
    have hid := (MemoryIdAllocator.div_of_mem_issued hn hx).symm.trans
      (MemoryIdAllocator.div_of_mem_issued hn' hx')
    have hsuffix := suffix_lt buf
    have hsuffix' := suffix_lt buf'
    rw [toNat_newInstanceId, toNat_newInstanceId] at hid
    omega

/-- **Rounds.**  Two times have ids in order, and memory ids that are apart, exactly if the first one comes
first within a round of the seconds.  Memory ids alone are apart exactly if the times stand at different
places of a round. -/
theorem instance_ids_ordered_iff (t t' : UInt64) :
    (CreatedInOrder t t' ∧ Partitioned t t' ↔ roundSeconds t < roundSeconds t') ∧
    (Partitioned t t' ↔ roundSeconds t ≠ roundSeconds t') :=
  ⟨⟨fun h => lt_of_createdInOrder h.1,
    fun h => ⟨createdInOrder_of_lt h, (partitioned_iff t t').mpr h.ne⟩⟩, partitioned_iff t t'⟩

/-- The last second of the first round and the first one of the second round; and a second with the same
one of the next round, twelve days later. -/
theorem ids_go_round :
    ¬CreatedInOrder 1578885375 1578885376 ∧ ¬Partitioned 1577836800 1578885376 := by
  constructor
  · exact fun h => absurd (h none none).1 (by decide)
  · have hsame : newInstanceId (some 1577836800) none = newInstanceId (some 1578885376) none := by decide
    intro h
    refine h none none 1 1 (by decide) (by decide) List.mem_cons_self ?_
    rw [hsame]
    exact List.mem_cons_self

end ChittaField
