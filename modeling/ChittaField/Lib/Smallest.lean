import ChittaField.Lib.Lists

/-!
# The smallest elements

The smallest elements of a list can be collected one by one: what comes is put to its place, and what
is too much is dropped.
-/

namespace ChittaField.Smallest

variable {α : Type*} [LinearOrder α]

/-- The smallest elements of a list, in order. -/
def smallest (k : ℕ) (xs : List α) : List α := (xs.insertionSort (· ≤ ·)).take k

variable {k : ℕ} {x y : α} {xs ys heap : List α}

/-- The order of a list does not matter. -/
lemma smallest_perm (h : xs.Perm ys) : smallest k xs = smallest k ys := by
  rw [smallest, smallest, Lists.insertionSort_perm h]

lemma pairwise_smallest : (smallest k xs).Pairwise (· ≤ ·) :=
  (List.pairwise_insertionSort _ xs).sublist (List.take_sublist _ _)

lemma length_smallest_le : (smallest k xs).length ≤ k := List.length_take_le _ _

/-- What is behind the smallest ones stays there. -/
lemma take_orderedInsert (k : ℕ) (x : α) (l : List α) :
    (l.orderedInsert (· ≤ ·) x).take k = ((l.take k).orderedInsert (· ≤ ·) x).take k := by
  induction l generalizing k with
  | nil => rw [List.take_nil]
  | cons y l ih =>
    cases k with
    | zero => rfl
    | succ k =>
      rw [List.take_succ_cons, List.orderedInsert_cons, List.orderedInsert_cons]
      split_ifs
      · rw [List.take_succ_cons, List.take_succ_cons]
        cases k with
        | zero => rfl
        | succ k => rw [List.take_succ_cons, List.take_succ_cons, List.take_take, Nat.min_eq_left (by omega)]
      · rw [List.take_succ_cons, List.take_succ_cons, ih]

/-- One more element. -/
lemma smallest_cons : smallest k (x :: xs) = ((smallest k xs).orderedInsert (· ≤ ·) x).take k := by
  rw [smallest, List.insertionSort_cons, take_orderedInsert]
  rfl

/-- What is not smaller than the greatest one is put behind it. -/
lemma orderedInsert_of_le (hsorted : heap.Pairwise (· ≤ ·)) (hle : ∀ y ∈ heap, y ≤ x) :
    heap.orderedInsert (· ≤ ·) x = heap ++ [x] := by
  refine List.Perm.eq_of_pairwise' (hsorted.orderedInsert x heap) ?_
    ((List.perm_orderedInsert _ x heap).trans (List.perm_append_singleton x heap).symm)
  refine List.pairwise_append.mpr ⟨hsorted, List.pairwise_singleton _ _, fun y hy z hz => ?_⟩
  rw [List.mem_singleton.mp hz]
  exact hle y hy

/-- What is smaller than the greatest one is put in front of it. -/
lemma orderedInsert_concat (hsorted : (heap ++ [y]).Pairwise (· ≤ ·)) (hlt : x < y) :
    (heap ++ [y]).orderedInsert (· ≤ ·) x = heap.orderedInsert (· ≤ ·) x ++ [y] := by
  obtain ⟨hheap, -, hle⟩ := List.pairwise_append.mp hsorted
  refine List.Perm.eq_of_pairwise' (hsorted.orderedInsert x _) ?_ ?_
  · refine List.pairwise_append.mpr
      ⟨hheap.orderedInsert x heap, List.pairwise_singleton _ _, fun z hz w hw => ?_⟩
    rw [List.mem_singleton.mp hw]
    rcases (List.mem_orderedInsert _).mp hz with rfl | hz
    · exact hlt.le
    · exact hle z hz y (List.mem_singleton_self y)
  · exact (List.perm_orderedInsert _ x _).trans
      ((List.perm_orderedInsert _ x heap).symm.append_right [y])

/-- To replace the greatest one, if there are enough, is to take the smallest ones. -/
lemma take_orderedInsert_concat (hsorted : (heap ++ [y]).Pairwise (· ≤ ·)) (hlength : heap.length + 1 = k) :
    ((heap ++ [y]).orderedInsert (· ≤ ·) x).take k =
      if x < y then heap.orderedInsert (· ≤ ·) x else heap ++ [y] := by
  split_ifs with hlt
  · rw [orderedInsert_concat hsorted hlt, List.take_append_of_le_length
      (by rw [List.orderedInsert_length]; omega), List.take_of_length_le
      (by rw [List.orderedInsert_length]; omega)]
  · have hle : ∀ z ∈ heap ++ [y], z ≤ x :=
      List.forall_mem_append.mpr ⟨fun z hz => ((List.pairwise_append.mp hsorted).2.2 z hz y
        (List.mem_singleton_self y)).trans (not_lt.mp hlt), List.forall_mem_singleton.mpr (not_lt.mp hlt)⟩
    rw [orderedInsert_of_le hsorted hle, List.take_append_of_le_length (by simp; omega),
      List.take_of_length_le (by simp; omega)]

end ChittaField.Smallest
