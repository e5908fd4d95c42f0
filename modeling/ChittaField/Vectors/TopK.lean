import Mathlib.Data.List.Induction
import Mathlib.Data.Prod.Lex
import ChittaField.Lib.Smallest

/-!
# The best hits

A bounded heap keeps the best hits of a search: the worst hit is on top, and a better one takes its
place.  What comes out is what sorting all hits would give, cut to the bound: `heap_eq_sort_take`.

A heap is the list of its entries in their order, with the top at the end.  Scores are any linear order:
the two comparisons of floats are its order, and so is the total one.
-/

namespace ChittaField.Vectors

open Smallest

variable {F : Type*} [LinearOrder F]

structure RankedHit (F : Type*) where
  score : F
  memoryId : ℕ
deriving DecidableEq

structure SemanticHit (F : Type*) where
  memoryId : ℕ
  cosineSimilarity : F
deriving DecidableEq

/-- The order of the heap: the worse hit is greater. -/
def RankedHit.cmp (a b : RankedHit F) : Ordering :=
  (compare b.score a.score).then (compare a.memoryId b.memoryId)

/-! ## The heap of hits -/

def push (heap : List (RankedHit F)) (candidate : RankedHit F) : List (RankedHit F) :=
  heap.orderedInsert (fun a b => (a.cmp b).isLE = true) candidate

def peek (heap : List (RankedHit F)) : Option (RankedHit F) := heap.getLast?

def pop (heap : List (RankedHit F)) : List (RankedHit F) := heap.dropLast

def pushTopK (heap : List (RankedHit F)) (k memoryId : ℕ) (score : F) : List (RankedHit F) :=
  if k = 0 then heap
  else
    let candidate : RankedHit F := ⟨score, memoryId⟩
    if heap.length < k then push heap candidate
    else
      match peek heap with
      | none => push heap candidate
      | some worst =>
        if worst.score < score ∨ score = worst.score ∧ memoryId < worst.memoryId then
          push (pop heap) candidate
        else heap

/-- The hits of a heap, whose entries come in any order. -/
def heapToHits (ranked : List (RankedHit F)) : List (SemanticHit F) :=
  (ranked.insertionSort fun a b =>
    ((compare b.score a.score).then (compare a.memoryId b.memoryId)).isLE = true).map
    fun hit => ⟨hit.memoryId, hit.score⟩

/-! ## One order -/

instance : LinearOrder (RankedHit F) :=
  LinearOrder.lift' (fun h => toLex (OrderDual.toDual h.score, h.memoryId)) fun a b h => by
    obtain ⟨hscore, hid⟩ := Prod.mk.inj (toLex.injective h)
    cases a
    cases b
    exact congrArg₂ RankedHit.mk (OrderDual.toDual.injective hscore) hid

variable {a b : RankedHit F}

/-- Hits are in the order of their scores, from the highest, and then of their ids. -/
lemma le_iff : a ≤ b ↔ b.score < a.score ∨ a.score = b.score ∧ a.memoryId ≤ b.memoryId :=
  Prod.Lex.toLex_le_toLex

lemma lt_iff : a < b ↔ b.score < a.score ∨ a.score = b.score ∧ a.memoryId < b.memoryId :=
  Prod.Lex.toLex_lt_toLex

/-- The order of the heap and that of the hits are one. -/
lemma isLE_then : ((compare b.score a.score).then (compare a.memoryId b.memoryId)).isLE = true ↔
    a ≤ b := by
  rw [le_iff]
  rcases lt_trichotomy b.score a.score with h | h | h
  · rw [compare_lt_iff_lt.mpr h]
    simp [h]
  · rw [compare_eq_iff_eq.mpr h, Ordering.then, Nat.isLE_compare]
    simp [h]
  · rw [compare_gt_iff_gt.mpr h]
    simp [h.not_gt, h.ne]

/-- Sorting by the comparison of the hits is sorting in their order. -/
lemma insertionSort_eq (hits : List (RankedHit F)) :
    (hits.insertionSort fun a b =>
      ((compare b.score a.score).then (compare a.memoryId b.memoryId)).isLE = true) =
    hits.insertionSort (· ≤ ·) := by
  have hmap := List.map_insertionSort (fun a b : RankedHit F =>
    ((compare b.score a.score).then (compare a.memoryId b.memoryId)).isLE = true) (· ≤ ·) id hits
    fun a _ b _ => isLE_then
  rwa [List.map_id, List.map_id] at hmap

/-- A push inserts in order. -/
lemma push_eq (heap : List (RankedHit F)) (candidate : RankedHit F) :
    push heap candidate = heap.orderedInsert (· ≤ ·) candidate := by
  unfold push
  induction heap with
  | nil => rfl
  | cons hit heap ih =>
    rw [List.orderedInsert_cons, List.orderedInsert_cons, ih]
    exact if_congr isLE_then rfl rfl

/-- A hit is let in exactly if it is better than the worst one. -/
lemma pushTopK_eq {heap : List (RankedHit F)} {k memoryId : ℕ} {score : F}
    (hsorted : heap.Pairwise (· ≤ ·)) (hlength : heap.length ≤ k) :
    pushTopK heap k memoryId score = (heap.orderedInsert (· ≤ ·) ⟨score, memoryId⟩).take k := by
  unfold pushTopK
  split_ifs with hk hroom
  · rw [hk] at hlength ⊢
    exact List.eq_nil_of_length_eq_zero (Nat.le_zero.mp hlength)
  · rw [push_eq, List.take_of_length_le]
    rw [List.orderedInsert_length]
    exact hroom
  · rcases heap.eq_nil_or_concat with rfl | ⟨front, worst, rfl⟩
    · exact absurd (Nat.pos_of_ne_zero hk) hroom
    · rw [List.concat_eq_append] at hsorted hlength hroom ⊢
      rw [List.length_append, List.length_singleton] at hlength hroom
      rw [take_orderedInsert_concat hsorted (by omega), peek, List.getLast?_concat, pop,
        List.dropLast_concat]
      dsimp only
      rw [push_eq]
      exact if_congr (lt_iff (a := ⟨score, memoryId⟩)).symm rfl rfl

/-- The heap has the best hits that were pushed. -/
lemma foldl_pushTopK (k : ℕ) (pushes : List (ℕ × F)) :
    pushes.foldl (fun heap p => pushTopK heap k p.1 p.2) [] =
      smallest k (pushes.map fun p => ⟨p.2, p.1⟩) := by
  induction pushes using List.reverseRecOn with
  | nil => exact (List.take_nil).symm
  | append_singleton pushes p ih =>
    rw [List.foldl_concat, ih,
      pushTopK_eq pairwise_smallest length_smallest_le, ← smallest_cons, List.map_append]
    exact smallest_perm (List.perm_append_singleton _ _).symm

/-- **The best hits.**  Whatever the order of the pushes and of the entries of the heap, the hits are
those of the sorted list, cut to the bound. -/
theorem heap_eq_sort_take (k : ℕ) (pushes pushes' : List (ℕ × F)) (horder : pushes'.Perm pushes)
    (ranked : List (RankedHit F))
    (hranked : ranked.Perm (pushes'.foldl (fun heap p => pushTopK heap k p.1 p.2) [])) :
    heapToHits ranked =
      ((pushes.insertionSort fun a b => b.2 < a.2 ∨ a.2 = b.2 ∧ a.1 ≤ b.1).take k).map
        fun p => ⟨p.1, p.2⟩ := by
  have hsort : (pushes.insertionSort fun a b => b.2 < a.2 ∨ a.2 = b.2 ∧ a.1 ≤ b.1).map
      (fun p => (⟨p.2, p.1⟩ : RankedHit F)) = (pushes.map fun p => ⟨p.2, p.1⟩).insertionSort (· ≤ ·) :=
    List.map_insertionSort _ _ _ pushes fun a _ b _ => le_iff (a := ⟨a.2, a.1⟩) (b := ⟨b.2, b.1⟩) |>.symm
  have hheap : ranked.insertionSort (· ≤ ·) = smallest k (pushes.map fun p => ⟨p.2, p.1⟩) := by
    rw [foldl_pushTopK, smallest_perm (horder.map _)] at hranked
    exact List.Perm.eq_of_pairwise' (List.pairwise_insertionSort _ ranked) pairwise_smallest
      ((List.perm_insertionSort _ ranked).trans hranked)
  rw [heapToHits, insertionSort_eq, hheap, smallest, ← hsort, ← List.map_take, List.map_map]
  rfl

/-- Two of three hits, of which two have one score. -/
theorem heap_of_three : heapToHits [(⟨4, 9⟩ : RankedHit ℕ), ⟨7, 2⟩] = [⟨2, 7⟩, ⟨9, 4⟩] := by
  have h := heap_eq_sort_take 2 [(2, 7), (9, 4), (11, 4)] [(11, 4), (2, 7), (9, 4)] (by decide)
    [(⟨4, 9⟩ : RankedHit ℕ), ⟨7, 2⟩] (by decide +kernel)
  rw [h]
  decide +kernel

end ChittaField.Vectors
