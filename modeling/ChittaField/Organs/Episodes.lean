import Mathlib.Data.Nat.Size
import Mathlib.Data.UInt
import ChittaField.Lib.BitPlanes
import ChittaField.Organs.OrgansCache
import ChittaField.Organs.RealmBundles

/-!
# Bundles of episodes

A bundle of episodes counts how often every bit is set, as a bundle of a realm does, but its counters
stand in planes: one vector has the lowest bits of all counters, the next one the bits above them.
Planes are added as the number of vectors asks for them, sixteen at most.  `episodes_exact` says that
the planes hold the same counters, and that the same majority is read from them.
-/

namespace ChittaField

namespace EpBundle

/-- The words of the planes at one place. -/
def column (planes : List HdcVec) (wi : Fin Hdc.D) : List UInt64 := planes.map (· wi)

variable (e : EpBundle)

/-- The planes, with those that are needed for one vector more. -/
def grow : List HdcVec :=
  e.planes ++ List.replicate
    (min (Nat.log2 (min (e.n + 1) (2 ^ 32 - 1)) + 1) 16 - e.planes.length) fun _ => 0

/-- The bits that are set in most of the vectors: all counters are compared at once. -/
def toHv : HdcVec :=
  let threshold := e.n / 2 + 1
  if e.n = 0 ∨ 2 ^ e.planes.length ≤ threshold then fun _ => 0
  else fun wi =>
    let r := BitPlanes.compareFrom threshold 0 (column e.planes wi)
    r.1 ||| r.2

/-- The counter of a bit, as the planes have it. -/
def laneValue (wi : Fin Hdc.D) (b : ℕ) : ℕ := BitPlanes.value (e.planes.map fun p => Hdc.bit p wi b)

end EpBundle

/-! ## Lanes of words -/

/-- A bit of a word. -/
def laneBit (b : ℕ) (w : UInt64) : Bool := w.toBitVec.getLsbD (b % 64)

lemma lane_laneBit (b : ℕ) : BitPlanes.Lane (laneBit b) := by
  have hb : b % 64 < 64 := Nat.mod_lt _ (by omega)
  refine ⟨?_, fun x y => ?_, fun x y => ?_, fun x y => ?_, fun x => ?_⟩
  · simp [laneBit]
  · simp [laneBit]
  · simp [laneBit]
  · simp [laneBit]
  · simp [laneBit, hb]

/-- A word whose bits are all zero is zero. -/
lemma eq_zero_of_laneBit {w : UInt64} (h : ∀ b, laneBit b w = false) : w = 0 := by
  refine UInt64.toBitVec_inj.mp (BitVec.eq_of_getLsbD_eq fun i hi => ?_)
  have hbit := h i
  rw [laneBit, Nat.mod_eq_of_lt hi] at hbit
  rw [hbit]
  simp

namespace EpBundle

variable {e : EpBundle} {vs : List HdcVec} {wi : Fin Hdc.D} {b : ℕ}

lemma map_laneBit (planes : List HdcVec) (wi : Fin Hdc.D) (b : ℕ) :
    (column planes wi).map (laneBit b) = planes.map fun p => Hdc.bit p wi b := by
  rw [column, List.map_map]
  exact List.map_congr_left fun p _ => (Hdc.bit_eq p wi b).symm

lemma length_column (planes : List HdcVec) (wi : Fin Hdc.D) :
    (column planes wi).length = planes.length := List.length_map ..

/-- New planes change no counter. -/
lemma laneValue_grow (e : EpBundle) (wi : Fin Hdc.D) (b : ℕ) :
    BitPlanes.value ((column e.grow wi).map (laneBit b)) = e.laneValue wi b := by
  have hzero : Hdc.bit (fun _ => 0) wi b = false := by
    rw [Hdc.bit_eq]
    simp
  rw [map_laneBit, grow, List.map_append, List.map_replicate, hzero, BitPlanes.value_append_zeros]
  rfl

lemma length_planes_add (e : EpBundle) (hv : HdcVec) : (e.add hv).planes.length = e.grow.length := by
  rw [EpBundle.add, List.length_map, List.length_range]
  rfl

/-- An addition adds each word to the words at its place. -/
lemma column_add (e : EpBundle) (hv : HdcVec) (wi : Fin Hdc.D) :
    column (e.add hv).planes wi = BitPlanes.addWord (column e.grow wi) (hv wi) := by
  have hlength : (BitPlanes.addWord (column e.grow wi) (hv wi)).length = e.grow.length := by
    rw [BitPlanes.length_addWord, length_column]
  refine List.ext_getElem ?_ fun i hi hi' => ?_
  · rw [length_column, hlength, length_planes_add]
  · have hget : (BitPlanes.addWord (column e.grow wi) (hv wi)).getD i 0 =
        (BitPlanes.addWord (column e.grow wi) (hv wi))[i] := by
      rw [List.getD_eq_getElem?_getD, List.getElem?_eq_getElem hi', Option.getD_some]
    have hrun : (column (e.add hv).planes wi)[i] =
        (BitPlanes.addWord (column e.grow wi) (hv wi)).getD i 0 := by
      simp only [column, List.getElem_map, EpBundle.add, List.getElem_range]
      rfl
    rw [← hget, hrun]

lemma laneValue_add (e : EpBundle) (hv : HdcVec) (wi : Fin Hdc.D) (b : ℕ) :
    (e.add hv).laneValue wi b =
      min (e.laneValue wi b + (Hdc.bit hv wi b).toNat) (2 ^ e.grow.length - 1) := by
  rw [laneValue, ← map_laneBit, column_add, BitPlanes.value_addWord (lane_laneBit b),
    laneValue_grow, length_column, laneBit, ← Hdc.bit_eq]

/-- The planes count the bits of some vectors. -/
structure Counts (e : EpBundle) (vs : List HdcVec) : Prop where
  n : e.n = vs.length
  planes : e.planes.length = min vs.length.size 16
  lanes : ∀ wi b, e.laneValue wi b = min 65535 (vs.countP (Hdc.bit · wi b))

lemma counts_default : EpBundle.default.Counts [] := ⟨rfl, rfl, fun _ _ => rfl⟩

/-- The number of binary digits of a number. -/
lemma log2_succ {n : ℕ} (hn : n ≠ 0) : Nat.log2 n + 1 = n.size := by
  refine le_antisymm ?_ (Nat.size_le.mpr Nat.lt_log2_self)
  exact (Nat.log2_lt hn).mpr (Nat.lt_size_self n)

lemma Counts.length_grow (h : e.Counts vs) (hlen : vs.length < 2 ^ 32 - 1) :
    e.grow.length = min (vs.length + 1).size 16 := by
  have hle : vs.length.size ≤ (vs.length + 1).size := Nat.size_le_size (Nat.le_succ _)
  have hmin : min (vs.length + 1) (2 ^ 32 - 1) = vs.length + 1 := by omega
  rw [grow, List.length_append, List.length_replicate, h.n, h.planes, hmin,
    log2_succ (Nat.succ_ne_zero vs.length), Nat.succ_eq_add_one]
  omega

/-- Below sixteen planes there is room in every counter. -/
lemma Counts.room (h : e.Counts vs) (hlen : vs.length < 2 ^ 32 - 1) (hfew : e.grow.length ≠ 16)
    (hv : HdcVec) (wi : Fin Hdc.D) (b : ℕ) :
    e.laneValue wi b + (Hdc.bit hv wi b).toNat < 2 ^ e.grow.length := by
  have hgrow := h.length_grow hlen
  have hsize : e.grow.length = (vs.length + 1).size := by omega
  have hlt := Nat.lt_size_self (vs.length + 1)
  have hcount : vs.countP (Hdc.bit · wi b) ≤ vs.length := List.countP_le_length
  have hbit := (Hdc.bit hv wi b).toNat_le
  rw [hsize, h.lanes]
  omega

lemma Counts.add (h : e.Counts vs) (hlen : vs.length < 2 ^ 32 - 1) (hv : HdcVec) :
    (e.add hv).Counts (vs ++ [hv]) := by
  have hgrow := h.length_grow hlen
  refine ⟨?_, ?_, fun wi b => ?_⟩
  · rw [List.length_append, List.length_singleton, ← h.n, EpBundle.add]
    dsimp only
    rw [h.n]
    omega
  · rw [length_planes_add, hgrow, List.length_append, List.length_singleton]
  · have hcount : (vs ++ [hv]).countP (Hdc.bit · wi b) =
        vs.countP (Hdc.bit · wi b) + (Hdc.bit hv wi b).toNat := by
      rw [List.countP_append, List.countP_singleton]
      cases Hdc.bit hv wi b <;> rfl
    rw [laneValue_add, hcount]
    by_cases hfull : e.grow.length = 16
    · rw [hfull, h.lanes]
      omega
    · -- no counter is at its greatest number
      have hroom := h.room hlen hfull hv wi b
      have hfew : e.grow.length < 16 := by omega
      have hpow : 2 ^ e.grow.length ≤ 2 ^ 15 := Nat.pow_le_pow_right Nat.two_pos (by omega)
      rw [h.lanes] at hroom ⊢
      omega

lemma counts_foldl (vs : List HdcVec) (hlen : vs.length < 2 ^ 32) :
    (vs.foldl EpBundle.add .default).Counts vs := by
  induction vs using List.reverseRecOn with
  | nil => exact counts_default
  | append_singleton vs hv ih =>
    rw [List.length_append, List.length_singleton] at hlen
    rw [List.foldl_concat]
    exact (ih (by omega)).add (by omega) hv

/-- A bit of the majority is set iff its counter says that it is set in most vectors. -/
lemma Counts.bit_toHv (h : e.Counts vs) (wi : Fin Hdc.D) (b : ℕ) :
    Hdc.bit e.toHv wi b = decide (vs.length / 2 + 1 ≤ e.laneValue wi b) := by
  have hlt : e.laneValue wi b < 2 ^ e.planes.length := by
    rw [laneValue]
    exact (BitPlanes.value_lt _).trans_eq (by rw [List.length_map])
  rw [toHv, h.n]
  dsimp only
  split_ifs with hnone
  · have hlow : ¬vs.length / 2 + 1 ≤ e.laneValue wi b := by
      rcases hnone with hnil | hhigh
      · rw [h.lanes, List.length_eq_zero_iff.mp hnil, List.countP_nil]
        omega
      · omega
    rw [decide_eq_false hlow, Hdc.bit_eq]
    simp
  · obtain ⟨-, hhigh⟩ := not_or.mp hnone
    have hlane := BitPlanes.lane_atLeast (lane_laneBit b) (vs.length / 2 + 1)
      (column e.planes wi) (by rw [length_column]; omega)
    rw [map_laneBit] at hlane
    rw [Hdc.bit_eq]
    exact hlane

lemma sums_foldl (vs : List HdcVec) : (vs.foldl RealmBundle.add .default).Sums vs := by
  induction vs using List.reverseRecOn with
  | nil => exact RealmBundle.sums_default
  | append_singleton vs hv ih =>
    rw [List.foldl_concat]
    exact ih.add hv

/-- The majority that the planes say is the one of the vectors. -/
lemma Counts.toHv_eq (h : e.Counts vs) (hlen : vs.length < 2 ^ 32) : e.toHv = Hdc.bundle vs := by
  refine Hdc.ext_bit fun wi b hb => ?_
  rw [h.bit_toHv, h.lanes, Hdc.bundle, Nat.mod_eq_of_lt hlen]
  cases vs with
  | nil =>
    rw [if_pos (by simp), Hdc.bit_eq]
    simp
  | cons hv vs =>
    rw [if_neg (by simp), Hdc.bit_ofBits _ hb, min_comm]

end EpBundle

/-- Behind any additions the planes count every bit up to 65535, they are sixteen at most, a carry is
left only where there are sixteen, and the majority is the one that counters for each bit give. -/
theorem episodes_exact (vs : List HdcVec) (hlen : vs.length < 2 ^ 32 - 1) :
    let e := vs.foldl EpBundle.add .default
    (∀ wi b, e.laneValue wi b = min 65535 (vs.countP (Hdc.bit · wi b))) ∧
      e.planes.length ≤ 16 ∧
      (∀ pre hv, pre ++ [hv] <+: vs → ∀ wi,
        let grown := (pre.foldl EpBundle.add .default).grow
        (BitPlanes.ripple (EpBundle.column grown wi) (hv wi)).2 ≠ 0 → grown.length = 16) ∧
      (∀ wi b, Hdc.bit e.toHv wi b = decide (vs.length / 2 + 1 ≤ e.laneValue wi b)) ∧
      e.toHv = Hdc.bundle vs ∧ e.toHv = (vs.foldl RealmBundle.add .default).toHv := by
  have hcounts := EpBundle.counts_foldl vs (by omega)
  have hbundle := hcounts.toHv_eq (by omega)
  refine ⟨hcounts.lanes, ?_, fun pre hv hpre wi hcarry => ?_, hcounts.bit_toHv, hbundle, ?_⟩
  · rw [hcounts.planes]
    exact min_le_right _ _
  · have hlength := hpre.length_le
    rw [List.length_append, List.length_singleton] at hlength
    have hbefore := EpBundle.counts_foldl pre (by omega)
    by_contra hfew
    refine hcarry (eq_zero_of_laneBit fun b => ?_)
    refine BitPlanes.lane_ripple (lane_laneBit b) ?_
    rw [EpBundle.laneValue_grow, EpBundle.length_column, laneBit, ← Hdc.bit_eq]
    exact hbefore.room (by omega) hfew hv wi b
  · rw [hbundle]
    exact ((EpBundle.sums_foldl vs).toHv_eq (by omega)).symm

/-- Three vectors, two of them with all bits. -/
theorem episodes_exact_three :
    ([fun _ => ~~~0, fun _ => ~~~0, fun _ => 0].foldl EpBundle.add .default).toHv =
      Hdc.bundle [fun _ => ~~~0, fun _ => ~~~0, fun _ => 0] :=
  (episodes_exact [fun _ => ~~~0, fun _ => ~~~0, fun _ => 0] (by decide)).2.2.2.2.1

end ChittaField
