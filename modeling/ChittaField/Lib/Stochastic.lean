import Mathlib.Algebra.BigOperators.Field
import Mathlib.Algebra.Order.BigOperators.Group.Finset
import Mathlib.Algebra.Order.Field.Basic
import Mathlib.Tactic.LinearCombination
import Mathlib.Tactic.Ring

/-!
# Walks with restarts

A distribution gives each of `n` nodes a part of one whole.  Mass that is on a node is spread along the
node's row, whose entries sum to one; what is on nodes without a row is spread along the restart
vector.  A step of the walk does this with a part of the mass, and gives the rest to the restart vector
at once, so that a distribution becomes a distribution.
-/

namespace ChittaField.Stochastic

variable {K : Type*} [Field K]

/-- Add to one entry of a vector. -/
def bump (v : ℕ → K) (i : ℕ) (x : K) : ℕ → K := Function.update v i (v i + x)

/-- What is on the first `n` nodes. -/
def mass (n : ℕ) (v : ℕ → K) : K := ∑ i ∈ Finset.range n, v i

/-- Spread some mass along a row. -/
def spread (out : K) (row : List (ℕ × K)) (v : ℕ → K) : ℕ → K :=
  row.foldl (fun v e => bump v e.1 (out * e.2)) v

section Mass

variable {n i : ℕ} {x out : K} {v : ℕ → K} {row : List (ℕ × K)}

lemma mass_bump (hi : i < n) : mass n (bump v i x) = mass n v + x := by
  have hmem : i ∈ Finset.range n := Finset.mem_range.mpr hi
  unfold mass bump
  rw [Finset.sum_update_of_mem hmem, ← Finset.add_sum_erase _ v hmem, Finset.sdiff_singleton_eq_erase]
  ring

/-- What is spread arrives. -/
lemma mass_spread (hrow : ∀ e ∈ row, e.1 < n) :
    mass n (spread out row v) = mass n v + out * (row.map (·.2)).sum := by
  unfold spread
  induction row generalizing v with
  | nil => simp
  | cons e row ih =>
    rw [List.foldl_cons, ih (List.forall_mem_cons.mp hrow).2,
      mass_bump (hrow e List.mem_cons_self), List.map_cons, List.sum_cons]
    ring

/-- Scaling a vector scales its mass. -/
lemma mass_mul (c : K) : mass n (fun i => c * v i) = c * mass n v := (Finset.mul_sum ..).symm

lemma mass_add_mul (w : ℕ → K) (c : K) : mass n (fun i => v i + c * w i) = mass n v + c * mass n w := by
  rw [← mass_mul]
  exact Finset.sum_add_distrib

lemma sum_map_range (v : ℕ → K) : ((List.range n).map v).sum = mass n v := rfl

end Mass

variable [LinearOrder K] [IsStrictOrderedRing K]

/-- A vector that is nowhere negative, with one whole on the first `n` nodes. -/
structure Distribution (n : ℕ) (v : ℕ → K) : Prop where
  nonneg : ∀ i, 0 ≤ v i
  whole : mass n v = 1

/-- Divide a row by its sum; a row without weight is dropped. -/
def normalise (row : List (ℕ × K)) : List (ℕ × K) :=
  let sum := (row.map (·.2)).sum
  if 0 < sum then row.map fun e => (e.1, e.2 / sum) else []

/-- A row stays within the first `n` nodes, is nowhere negative, and sums to one unless it is empty. -/
structure Row (n : ℕ) (row : List (ℕ × K)) : Prop where
  inside : ∀ e ∈ row, e.1 < n
  nonneg : ∀ e ∈ row, 0 ≤ e.2
  whole : row ≠ [] → (row.map (·.2)).sum = 1

variable {n i : ℕ} {x out : K} {v : ℕ → K} {row : List (ℕ × K)}

lemma bump_nonneg (hv : ∀ i, 0 ≤ v i) (hx : 0 ≤ x) (j : ℕ) : 0 ≤ bump v i x j := by
  unfold bump
  by_cases hj : j = i
  · subst hj
    rw [Function.update_self]
    exact add_nonneg (hv j) hx
  · rw [Function.update_of_ne hj]
    exact hv j

lemma spread_nonneg (hv : ∀ i, 0 ≤ v i) (hout : 0 ≤ out) (hrow : ∀ e ∈ row, 0 ≤ e.2) (j : ℕ) :
    0 ≤ spread out row v j := by
  unfold spread
  induction row generalizing v with
  | nil => exact hv j
  | cons e row ih =>
    refine ih (bump_nonneg hv (mul_nonneg hout (hrow e List.mem_cons_self))) fun e' he' => ?_
    exact hrow e' (List.mem_cons_of_mem _ he')

/-- A row is divided into one whole. -/
lemma row_normalise (hinside : ∀ e ∈ row, e.1 < n) (hnonneg : ∀ e ∈ row, 0 ≤ e.2) :
    Row n (normalise row) := by
  unfold normalise
  dsimp only
  split_ifs with hsum
  · refine ⟨fun e he => ?_, fun e he => ?_, fun _ => ?_⟩
    · obtain ⟨e', he', rfl⟩ := List.mem_map.mp he
      exact hinside e' he'
    · obtain ⟨e', he', rfl⟩ := List.mem_map.mp he
      exact div_nonneg (hnonneg e' he') hsum.le
    · have hdiv : ∀ (row : List (ℕ × K)) (c : K),
          ((row.map fun e => (e.1, e.2 / c)).map (·.2)).sum = (row.map (·.2)).sum / c := by
        intro row c
        induction row with
        | nil => simp
        | cons e row ih =>
          rw [List.map_cons, List.map_cons, List.sum_cons, ih, List.map_cons, List.sum_cons, add_div]
      rw [hdiv, div_self hsum.ne']
  · exact ⟨by simp, by simp, fun h => absurd rfl h⟩

/-- Where all is zero on the first nodes, there is no mass, and the other way round. -/
lemma mass_eq_zero (hv : ∀ i, 0 ≤ v i) : mass n v = 0 ↔ ∀ i < n, v i = 0 := by
  unfold mass
  rw [Finset.sum_eq_zero_iff_of_nonneg fun i _ => hv i]
  exact forall_congr' fun i => by rw [Finset.mem_range]

/-! ## A step of a walk -/

section Step

variable (c : K) (adj : ℕ → List (ℕ × K)) (p : ℕ → K)

/-- Spread the mass of a node, or put it aside if the node has no row. -/
def flow (s : (ℕ → K) × K) (i : ℕ) : (ℕ → K) × K :=
  if adj i = [] then (s.1, s.2 + p i) else (spread (c * p i) (adj i) s.1, s.2)

/-- One step: `alpha` of the mass is on the restart vector, the rest follows the rows, and what has no
row to follow is put on the restart vector too. -/
def walkStep (n : ℕ) (alpha : K) (restart : ℕ → K) : ℕ → K :=
  let s := (List.range n).foldl (flow (1 - alpha) adj p) (fun i => alpha * restart i, 0)
  if 0 < s.2 then fun i => s.1 i + (1 - alpha) * s.2 * restart i else s.1

variable {c adj p}

/-- Mass that flows is spread or put aside. -/
lemma flow_spec (hc : 0 ≤ c) (hadj : ∀ i, Row n (adj i)) (hp : ∀ i, 0 ≤ p i) (is : List ℕ)
    {s : (ℕ → K) × K} (hs : (∀ i, 0 ≤ s.1 i) ∧ 0 ≤ s.2) :
    ((∀ i, 0 ≤ (is.foldl (flow c adj p) s).1 i) ∧ 0 ≤ (is.foldl (flow c adj p) s).2) ∧
      mass n (is.foldl (flow c adj p) s).1 + c * (is.foldl (flow c adj p) s).2 =
        mass n s.1 + c * s.2 + c * (is.map p).sum := by
  induction is generalizing s with
  | nil => simpa using hs
  | cons i is ih =>
    have hstep : ((∀ j, 0 ≤ (flow c adj p s i).1 j) ∧ 0 ≤ (flow c adj p s i).2) ∧
        mass n (flow c adj p s i).1 + c * (flow c adj p s i).2 = mass n s.1 + c * s.2 + c * p i := by
      unfold flow
      split_ifs with hnil
      · refine ⟨⟨hs.1, add_nonneg hs.2 (hp i)⟩, ?_⟩
        ring
      · refine ⟨⟨spread_nonneg hs.1 (mul_nonneg hc (hp i)) (hadj i).nonneg, hs.2⟩, ?_⟩
        dsimp only
        rw [mass_spread (hadj i).inside, (hadj i).whole hnil]
        ring
    obtain ⟨hnonneg, hmass⟩ := ih hstep.1
    refine ⟨hnonneg, ?_⟩
    rw [List.foldl_cons, hmass, hstep.2, List.map_cons, List.sum_cons]
    ring

/-- A step takes a distribution to a distribution. -/
lemma Distribution.walkStep {alpha : K} {restart : ℕ → K} (hp : Distribution n p)
    (hadj : ∀ i, Row n (adj i)) (hrestart : Distribution n restart) (h0 : 0 ≤ alpha) (h1 : alpha ≤ 1) :
    Distribution n (walkStep adj p n alpha restart) := by
  have hc : 0 ≤ 1 - alpha := sub_nonneg.mpr h1
  have hstart : (∀ i, 0 ≤ alpha * restart i) ∧ (0 : K) ≤ 0 :=
    ⟨fun i => mul_nonneg h0 (hrestart.nonneg i), le_rfl⟩
  obtain ⟨⟨hnonneg, haside⟩, hmass⟩ :=
    flow_spec (s := (fun i => alpha * restart i, 0)) hc hadj hp.nonneg (List.range n) hstart
  rw [sum_map_range, hp.whole] at hmass
  unfold Stochastic.walkStep
  dsimp only
  generalize (List.range n).foldl (flow (1 - alpha) adj p) (fun i => alpha * restart i, 0) = s
    at hnonneg haside hmass
  rw [mass_mul, hrestart.whole] at hmass
  split_ifs with hpos
  · refine ⟨fun i => add_nonneg (hnonneg i)
      (mul_nonneg (mul_nonneg hc haside) (hrestart.nonneg i)), ?_⟩
    rw [mass_add_mul, hrestart.whole]
    linear_combination hmass
  · obtain hzero : s.2 = 0 := le_antisymm (not_lt.mp hpos) haside
    refine ⟨hnonneg, ?_⟩
    rw [hzero] at hmass
    linear_combination hmass

end Step

end ChittaField.Stochastic
