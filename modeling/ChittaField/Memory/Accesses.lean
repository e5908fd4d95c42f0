import Mathlib.Data.Int.ConditionallyCompleteOrder
import ChittaField.Lib.Latest
import ChittaField.Memory.State

/-!
# Accesses in any order

The accesses of a batch are counted one after the other, and those of different writers come in an
order of their own.  The count and the times do not depend on it; the decay rate is a register that
the latest access writes, and among accesses of one millisecond the one that comes last.

`access_deltas_commute_iff` says which accesses may come in any order.
-/

namespace ChittaField.MemoryState

variable {F : Type} [F32 F]

/-- What an access writes to the decay rate. -/
def accessWrite (delta : StateDeltaOp F) : ℤ × Option F :=
  (delta.opTsMs, delta.decayRate.map fun rate => F32.max rate (F32.lit 0))

/-- Count some accesses. -/
def applyAccessDeltas (s : MemoryState F) (deltas : List (StateDeltaOp F)) : MemoryState F :=
  deltas.foldl applyAccessDelta s

/-- The order of the accesses does not matter, and the times that are kept are the sixteen latest. -/
def OrderFree (s : MemoryState F) (deltas : List (StateDeltaOp F)) : Prop :=
  ∀ ds ds' : List (StateDeltaOp F), ds.Perm deltas → ds'.Perm deltas →
    (s.applyAccessDeltas ds).accessCount = (s.applyAccessDeltas ds').accessCount ∧
    (s.applyAccessDeltas ds).lastAccessedMs = (s.applyAccessDeltas ds').lastAccessedMs ∧
    (s.applyAccessDeltas ds).accessTimestamps = (s.applyAccessDeltas ds').accessTimestamps ∧
    (s.applyAccessDeltas ds).decayRate = (s.applyAccessDeltas ds').decayRate ∧
    (s.applyAccessDeltas ds).accessTimestamps =
      Latest.largest 16 (s.accessTimestamps ++ deltas.map (·.opTsMs))

/-! ## What an access changes -/

variable (s : MemoryState F) (deltas : List (StateDeltaOp F))

/-- An access is counted, whatever else it says. -/
lemma accessCount_applyAccessDeltas : (s.applyAccessDeltas deltas).accessCount =
    (fun n => min (n + 1) (2 ^ 32 - 1))^[deltas.length] s.accessCount := by
  unfold applyAccessDeltas
  induction deltas generalizing s with
  | nil => rfl
  | cons delta deltas ih =>
    rw [List.foldl_cons, ih, List.length_cons, Function.iterate_succ_apply]
    rfl

/-- The time and the decay rate are a register. -/
lemma register_applyAccessDeltas :
    ((s.applyAccessDeltas deltas).lastAccessedMs, (s.applyAccessDeltas deltas).decayRate) =
      (deltas.map accessWrite).foldl (Latest.write s.lastStateOpTsMs)
        (s.lastAccessedMs, s.decayRate) := by
  unfold applyAccessDeltas
  induction deltas generalizing s with
  | nil => rfl
  | cons delta deltas ih =>
    have hstep : ((s.applyAccessDelta delta).lastAccessedMs, (s.applyAccessDelta delta).decayRate) =
        Latest.write s.lastStateOpTsMs (s.lastAccessedMs, s.decayRate) (accessWrite delta) := by
      cases hrate : delta.decayRate <;> simp [applyAccessDelta, Latest.write, accessWrite, hrate]
    rw [List.foldl_cons, ih, List.map_cons, List.foldl_cons, ← hstep]
    rfl

/-- The times are a window. -/
lemma accessTimestamps_applyAccessDeltas : (s.applyAccessDeltas deltas).accessTimestamps =
    (deltas.map (·.opTsMs)).foldl (Latest.window 16) s.accessTimestamps := by
  unfold applyAccessDeltas
  induction deltas generalizing s with
  | nil => rfl
  | cons delta deltas ih =>
    rw [List.foldl_cons, ih, List.map_cons, List.foldl_cons]
    rfl

/-! ## Any order -/

/-- The order of accesses does not matter iff the latest ones, among those that are behind neither
the last access nor the fence, write one decay rate at most, and if they write none, no access writes
another than the memory has; without accesses, the times must have been sorted and sixteen at most. -/
theorem access_deltas_commute_iff : s.OrderFree deltas ↔
    Latest.Settled s.lastStateOpTsMs (s.lastAccessedMs, s.decayRate) (deltas.map accessWrite) ∧
      (deltas = [] → s.accessTimestamps.SortedLE ∧ s.accessTimestamps.length ≤ 16) := by
  have hdecay : ∀ ds : List (StateDeltaOp F), (s.applyAccessDeltas ds).decayRate =
      ((ds.map accessWrite).foldl (Latest.write s.lastStateOpTsMs) (s.lastAccessedMs, s.decayRate)).2 :=
    fun ds => congrArg Prod.snd (s.register_applyAccessDeltas ds)
  have htime : ∀ ds : List (StateDeltaOp F), (s.applyAccessDeltas ds).lastAccessedMs =
      ((ds.map accessWrite).foldl (Latest.write s.lastStateOpTsMs) (s.lastAccessedMs, s.decayRate)).1 :=
    fun ds => congrArg Prod.fst (s.register_applyAccessDeltas ds)
  constructor
  · intro h
    refine ⟨Latest.perm_foldl_write_iff.mp fun ws hws => ?_, fun hnil => ?_⟩
    · have heq : List.Forall₂ (fun w d => w = accessWrite d) (deltas.map accessWrite) deltas :=
        List.forall₂_map_right_iff.mp (List.forall₂_refl _)
      obtain ⟨ds, hmap, hds⟩ := List.perm_comp_forall₂ hws heq
      have hmap' : List.Forall₂ Eq ws (ds.map accessWrite) := List.forall₂_map_right_iff.mpr hmap
      rw [List.forall₂_eq_eq_eq] at hmap'
      subst hmap'
      rw [← hdecay, ← hdecay]
      exact (h ds deltas hds (.refl _)).2.2.2.1
    · subst hnil
      have hkept := (h [] [] (.refl _) (.refl _)).2.2.2.2
      rw [List.map_nil, List.append_nil] at hkept
      exact Latest.largest_eq_self_iff.mp hkept.symm
  · intro ⟨hsettled, hempty⟩ ds ds' hds hds'
    have hsame : ds.Perm ds' := hds.trans hds'.symm
    have hkept : ∀ l : List (StateDeltaOp F), l.Perm deltas → (s.applyAccessDeltas l).accessTimestamps =
        Latest.largest 16 (s.accessTimestamps ++ deltas.map (·.opTsMs)) := by
      intro l hl
      rw [accessTimestamps_applyAccessDeltas]
      by_cases hnil : l = []
      · subst hnil
        have hnone : deltas = [] := hl.nil_eq.symm
        subst hnone
        rw [List.map_nil, List.append_nil]
        exact (Latest.largest_eq_self_iff.mpr (hempty rfl)).symm
      · rw [Latest.foldl_window _ _ (fun hmap => hnil (List.map_eq_nil_iff.mp hmap))]
        exact Latest.largest_perm ((hl.map _).append_left _)
    refine ⟨?_, ?_, (hkept ds hds).trans (hkept ds' hds').symm, ?_, hkept ds hds⟩
    · rw [accessCount_applyAccessDeltas, accessCount_applyAccessDeltas, hsame.length_eq]
    · rw [htime, htime, Latest.fst_foldl_write, Latest.fst_foldl_write]
      exact ((hsame.map _).map _).foldl_eq _
    · rw [hdecay, hdecay, hsettled.perm (hds.map _), hsettled.perm (hds'.map _)]

/-- An access at a time, with a decay rate. -/
def sampleAccess (opTsMs : ℤ) (rate : ℚ) : StateDeltaOp ℚ :=
  ⟨1, none, none, some rate, true, none, opTsMs, none, none, none, none⟩

/-- Of two accesses in one millisecond the one that comes last decides. -/
theorem accesses_differ : ¬(MemoryState.new 1 [] 0 : MemoryState ℚ).OrderFree
    [sampleAccess 5 (1 / 10), sampleAccess 5 (2 / 10)] := by
  intro h
  have hsame := (h _ [sampleAccess 5 (2 / 10), sampleAccess 5 (1 / 10)] (.refl _)
    (.swap ..)).2.2.2.1
  exact absurd hsame (by decide +kernel)

end ChittaField.MemoryState
