import Mathlib.Algebra.Order.Ring.Int
import ChittaField.Vectors.GraphEdges

/-!
# Searching rows

While a graph is built in bulk, its links are a flat table of cells, one for each row and layer, and
searches run over a snapshot of it: the offsets of the cells and one list of links.  The marks of the
rows that a search has visited are numbers of the search, so that they need not be cleared.

The snapshot lists the links of the cells (`layerNeighbors_fromLockedAdj`), and a search of rows is a
best-first search of them.  Searches that may keep all that can be reached find exactly this
(`search_exhaustive`).
-/

namespace ChittaField.Vectors

/-! ## Snapshots -/

/-- The links of the cells, one after another, with the offsets where the cells begin. -/
structure BuildSnapshot where
  nRows : ℕ
  offsets : List ℕ
  nbrs : List ℕ

namespace BuildSnapshot

/-- Copy a cell to its place, if there is room. -/
def copyFromSlice (nbrs : List ℕ) (p : List ℕ × ℕ) : Option (List ℕ) :=
  if p.2 + p.1.length ≤ nbrs.length then
    some (nbrs.take p.2 ++ p.1 ++ nbrs.drop (p.2 + p.1.length))
  else none

/-- The offsets of cells, in 32 bits. -/
def offsetsFrom (start : ℕ) (cells : List (List ℕ)) : List ℕ :=
  cells.scanl (fun offset cell => (offset + cell.length) % 2 ^ 32) start

/-- Take a snapshot of the cells; none, where it panics. -/
def fromLockedAdj (lockedAdj : List (List ℕ)) (nRows maxl : ℕ) : Option BuildSnapshot :=
  if lockedAdj.length < nRows * maxl then none
  else
    let cells := lockedAdj.take (nRows * maxl)
    let offsets := offsetsFrom 0 cells
    let total := offsets.getD (nRows * maxl) 0
    ((cells.zip offsets).foldlM copyFromSlice (List.replicate total 0)).map fun nbrs =>
      ⟨nRows, offsets, nbrs⟩

/-- The links of a row below `nRows` on a layer below `maxl`; there is no such slice beyond them. -/
def layerNeighbors (s : BuildSnapshot) (row layer maxl : ℕ) : List ℕ :=
  let base := row * maxl + layer
  (s.nbrs.drop (s.offsets.getD base 0)).take (s.offsets.getD (base + 1) 0 - s.offsets.getD base 0)

end BuildSnapshot

/-! ## Marks -/

/-- The marks of the rows, and the number of the search.  No mark is newer than the search. -/
structure Scratch where
  visited : ℕ → ℕ
  gen : ℕ
  gen_pos : 0 < gen
  gen_lt : gen < 2 ^ 32
  visited_le : ∀ row, visited row ≤ gen

namespace Scratch

def new : Scratch := ⟨fun _ => 0, 1, by decide, by decide, fun _ => Nat.zero_le 1⟩

/-- Begin another search; the marks are cleared when the numbers wrap around. -/
def reset (s : Scratch) : Scratch :=
  if h : (s.gen + 1) % 2 ^ 32 = 0 then new
  else
    ⟨s.visited, (s.gen + 1) % 2 ^ 32, Nat.pos_of_ne_zero h, Nat.mod_lt _ (by decide), fun row => by
      have hle := s.visited_le row
      have hlt := s.gen_lt
      omega⟩

/-- Mark a row; whether it was not marked yet. -/
def visit (s : Scratch) (row : ℕ) : Bool × Scratch :=
  if s.visited row = s.gen then (false, s)
  else
    (true, { s with
      visited := Function.update s.visited row s.gen
      visited_le := fun r => by
        by_cases hr : r = row
        · rw [hr, Function.update_self]
        · rw [Function.update_of_ne hr]
          exact s.visited_le r })

/-- A row is marked in this search. -/
def Marked (s : Scratch) (row : ℕ) : Prop := s.visited row = s.gen

instance (s : Scratch) (row : ℕ) : Decidable (s.Marked row) := inferInstanceAs (Decidable (_ = _))

lemma not_marked_reset (s : Scratch) (row : ℕ) : ¬s.reset.Marked row := by
  unfold reset
  split_ifs with hwrap
  · exact Nat.zero_ne_one
  · intro hmarked
    have hle := s.visited_le row
    have hlt := s.gen_lt
    unfold Marked at hmarked
    dsimp only at hmarked
    omega

lemma visit_of_marked {s : Scratch} {row : ℕ} (h : s.Marked row) : s.visit row = (false, s) := if_pos h

lemma visit_of_not_marked {s : Scratch} {row : ℕ} (h : ¬s.Marked row) : (s.visit row).1 = true ∧
    ∀ r, (s.visit row).2.Marked r ↔ r = row ∨ s.Marked r := by
  have hmark : s.visited row ≠ s.gen := h
  unfold visit
  rw [if_neg hmark]
  refine ⟨rfl, fun r => ?_⟩
  unfold Marked
  dsimp only
  by_cases hr : r = row
  · rw [hr, Function.update_self]
    exact ⟨fun _ => Or.inl rfl, fun _ => rfl⟩
  · rw [Function.update_of_ne hr]
    exact ⟨Or.inr, fun h => h.resolve_left hr⟩

end Scratch

/-! ## Searches -/

/-- The product of two vectors of bytes. -/
def dotI8 (a b : List ℤ) : ℤ := (List.zipWith (· * ·) a b).sum

/-- The product of a query with the vector of a row.  An arena has `embedDim` entries for every row
below the number of rows; the code panics beyond its end. -/
def rowSim (embedDim : ℕ) (query arena : List ℤ) (row : ℕ) : ℤ :=
  dotI8 query ((arena.drop (row * embedDim)).take embedDim)

/-- Heaps have the greatest scores first, and of equal ones the greatest rows. -/
def rowRanking : BestFirst.Ranking ℕ ℤ where
  before a b := b.1 < a.1 || (a.1 = b.1 && b.2 ≤ a.2)
  neg s := -s
  worse s t := s < t

/-- What a search of rows keeps. -/
structure RowBeam where
  scratch : Scratch
  candidates : List (ℤ × ℕ)
  found : List (ℤ × ℕ)

namespace RowBeam

variable (nRows : ℕ) (sim : ℕ → ℤ) (ef : ℕ)

/-- Look at an entry row. -/
def enter (b : RowBeam) (row : ℕ) : RowBeam :=
  if row < nRows then
    let (fresh, scratch) := b.scratch.visit row
    if fresh then
      ⟨scratch, BestFirst.push rowRanking (sim row, row) b.candidates,
        BestFirst.push rowRanking (-sim row, row) b.found⟩
    else { b with scratch }
  else b

/-- Look at a neighbour. -/
def look (b : RowBeam) (row : ℕ) : RowBeam :=
  if row < nRows then
    let (fresh, scratch) := b.scratch.visit row
    if fresh then
      ⟨scratch, BestFirst.push rowRanking (sim row, row) b.candidates,
        BestFirst.trim ef (BestFirst.push rowRanking (-sim row, row) b.found)⟩
    else { b with scratch }
  else b

/-- Expand the best candidate, unless the search is over. -/
def step (next : ℕ → List ℕ) (b : RowBeam) : Option RowBeam :=
  match b.candidates with
  | [] => none
  | (score, row) :: rest =>
    if ef ≤ b.found.length && b.found.head?.any fun worst => score < -worst.1 then none
    else some ((next row).foldl (look nRows sim ef) { b with candidates := rest })

/-- Search, at most so many steps. -/
def run (next : ℕ → List ℕ) : ℕ → RowBeam → RowBeam
  | 0, b => b
  | n + 1, b =>
    match step nRows sim ef next b with
    | none => b
    | some b' => run next n b'

end RowBeam

section Search

variable (embedDim : ℕ) (snap : BuildSnapshot) (query : List ℤ) (entryRows : List ℕ) (ef layer : ℕ)
  (arena : List ℤ) (scratch : Scratch) (maxl : ℕ)

/-- The search behind its last step. -/
def searchedRows : RowBeam :=
  RowBeam.run snap.nRows (rowSim embedDim query arena) ef (snap.layerNeighbors · layer maxl)
    (entryRows.length + snap.nRows)
    (entryRows.foldl (RowBeam.enter snap.nRows (rowSim embedDim query arena)) ⟨scratch.reset, [], []⟩)

/-- Search the rows; the `ef` best ones.  The code returns for layers below `maxl` and arenas with
`embedDim` entries for every row. -/
def searchLayerRows : List ℕ × Scratch :=
  ((searchedRows embedDim snap query entryRows ef layer arena scratch maxl).found.map (·.2),
    (searchedRows embedDim snap query entryRows ef layer arena scratch maxl).scratch)

end Search

/-! ## Snapshots list the cells -/

namespace BuildSnapshot

lemma offsetsFrom_cons {start : ℕ} {cell : List ℕ} (cells : List (List ℕ))
    (h : start + cell.length < 2 ^ 32) :
    offsetsFrom start (cell :: cells) = start :: offsetsFrom (start + cell.length) cells := by
  rw [offsetsFrom, List.scanl_cons, Nat.mod_eq_of_lt h]
  rfl

/-- Without an overflow a cell begins where those before it end. -/
lemma getD_offsetsFrom (start : ℕ) {cells : List (List ℕ)} (h : start + cells.flatten.length < 2 ^ 32)
    {i : ℕ} (hi : i ≤ cells.length) :
    (offsetsFrom start cells).getD i 0 = start + (cells.take i).flatten.length := by
  induction cells generalizing start i with
  | nil =>
    obtain rfl : i = 0 := Nat.le_zero.mp hi
    rfl
  | cons cell cells ih =>
    rw [List.flatten_cons, List.length_append] at h
    rw [offsetsFrom_cons cells (by omega)]
    cases i with
    | zero => rfl
    | succ i =>
      rw [List.getD_cons_succ, ih _ (by omega) (by simpa using hi), List.take_succ_cons,
        List.flatten_cons, List.length_append, Nat.add_assoc]

/-- The cells are copied one behind the other. -/
lemma foldlM_copy (done : List ℕ) (cells : List (List ℕ))
    (h : done.length + cells.flatten.length < 2 ^ 32) :
    (cells.zip (offsetsFrom done.length cells)).foldlM copyFromSlice
      (done ++ List.replicate cells.flatten.length 0) = some (done ++ cells.flatten) := by
  induction cells generalizing done with
  | nil => simp
  | cons cell cells ih =>
    rw [List.flatten_cons, List.length_append] at h
    have hcopy : copyFromSlice (done ++ List.replicate (cell :: cells).flatten.length 0)
        (cell, done.length) = some ((done ++ cell) ++ List.replicate cells.flatten.length 0) := by
      have hroom : done.length + cell.length ≤
          (done ++ List.replicate (cell :: cells).flatten.length 0).length := by
        rw [List.length_append, List.length_replicate, List.flatten_cons, List.length_append]
        omega
      have hrest : (done ++ List.replicate (cell :: cells).flatten.length 0).drop
          (done.length + cell.length) = List.replicate cells.flatten.length 0 := by
        rw [List.drop_append, List.drop_eq_nil_of_le (by omega), List.nil_append, List.drop_replicate,
          List.flatten_cons, List.length_append]
        congr 1
        omega
      unfold copyFromSlice
      dsimp only
      rw [if_pos hroom, hrest, List.take_left]
    rw [offsetsFrom_cons cells (by omega), List.zip_cons_cons, List.foldlM_cons, hcopy]
    have hrest := ih (done ++ cell) (by rw [List.length_append]; omega)
    rw [List.length_append] at hrest
    rw [Option.bind_eq_bind, Option.bind_some, hrest, List.flatten_cons, List.append_assoc]

lemma length_flatten_take_succ {cells : List (List ℕ)} {i : ℕ} (hi : i < cells.length) :
    (cells.take (i + 1)).flatten.length = (cells.take i).flatten.length + cells[i].length := by
  rw [List.take_succ_eq_append_getElem hi, List.flatten_append, List.length_append,
    List.flatten_singleton]

/-- A part of the links is a cell. -/
lemma take_drop_flatten {cells : List (List ℕ)} {i : ℕ} (hi : i < cells.length) :
    (cells.flatten.drop (cells.take i).flatten.length).take cells[i].length = cells[i] := by
  have hsplit : cells.flatten =
      (cells.take i).flatten ++ (cells[i] ++ (cells.drop (i + 1)).flatten) := by
    rw [← List.flatten_cons, ← List.flatten_append, List.getElem_cons_drop, List.take_append_drop]
  rw [hsplit, List.drop_left, List.take_left]

variable {lockedAdj : List (List ℕ)} {nRows maxl : ℕ}

/-- A snapshot of a table that is large enough and has less than 2 ^ 32 links. -/
lemma fromLockedAdj_eq (hcells : nRows * maxl ≤ lockedAdj.length)
    (h : (lockedAdj.take (nRows * maxl)).flatten.length < 2 ^ 32) :
    fromLockedAdj lockedAdj nRows maxl = some ⟨nRows, offsetsFrom 0 (lockedAdj.take (nRows * maxl)),
      (lockedAdj.take (nRows * maxl)).flatten⟩ := by
  have hlength : (lockedAdj.take (nRows * maxl)).length = nRows * maxl := by
    rw [List.length_take, Nat.min_eq_left hcells]
  have htotal := getD_offsetsFrom 0 (by rw [Nat.zero_add]; exact h) hlength.ge
  rw [Nat.zero_add, List.take_of_length_le hlength.le] at htotal
  have hcopy := foldlM_copy [] (lockedAdj.take (nRows * maxl)) (by simpa using h)
  unfold fromLockedAdj
  dsimp only
  rw [if_neg (by omega), htotal]
  rw [List.nil_append, List.length_nil, List.nil_append] at hcopy
  rw [hcopy]
  rfl

/-- **A snapshot lists the links of the cells.** -/
theorem layerNeighbors_fromLockedAdj (hcells : nRows * maxl ≤ lockedAdj.length)
    (h : (lockedAdj.take (nRows * maxl)).flatten.length < 2 ^ 32) {snap : BuildSnapshot}
    (hsnap : fromLockedAdj lockedAdj nRows maxl = some snap) {row layer : ℕ} (hrow : row < nRows)
    (hlayer : layer < maxl) :
    snap.layerNeighbors row layer maxl = lockedAdj.getD (row * maxl + layer) [] := by
  rw [fromLockedAdj_eq hcells h] at hsnap
  cases hsnap
  have hlength : (lockedAdj.take (nRows * maxl)).length = nRows * maxl := by
    rw [List.length_take, Nat.min_eq_left hcells]
  have hbase : row * maxl + layer < nRows * maxl := by
    have hmul : (row + 1) * maxl ≤ nRows * maxl := Nat.mul_le_mul_right maxl hrow
    rw [Nat.add_mul, Nat.one_mul] at hmul
    omega
  have hget := getD_offsetsFrom 0 (by rw [Nat.zero_add]; exact h)
    (hlength.symm ▸ hbase.le)
  have hget' := getD_offsetsFrom 0 (by rw [Nat.zero_add]; exact h)
    (hlength.symm ▸ hbase : row * maxl + layer + 1 ≤ (lockedAdj.take (nRows * maxl)).length)
  rw [length_flatten_take_succ (hlength.symm ▸ hbase)] at hget'
  unfold layerNeighbors
  dsimp only
  rw [hget, hget', Nat.zero_add, Nat.zero_add, Nat.add_sub_cancel_left,
    take_drop_flatten (hlength.symm ▸ hbase), List.getElem_take, List.getD_eq_getElem?_getD,
    List.getElem?_eq_getElem (by omega), Option.getD_some]

/-- The offsets of a cell with 2 ^ 32 links leave it no room. -/
lemma fromLockedAdj_overflow {cell : List ℕ} (h : cell.length = 2 ^ 32) :
    fromLockedAdj [cell] 1 1 = none := by
  have hoffsets : offsetsFrom 0 [cell] = [0, 0] := by
    rw [offsetsFrom, List.scanl_cons, List.scanl_nil, Nat.zero_add, h, Nat.mod_self]
  have hcopy : copyFromSlice [] (cell, 0) = none := if_neg (by dsimp only; rw [List.length_nil]; omega)
  unfold fromLockedAdj
  dsimp only
  rw [if_neg (by simp), List.take_of_length_le (by simp), hoffsets]
  simp only [Nat.mul_one, List.getD_cons_succ, List.getD_cons_zero, List.replicate_zero,
    List.zip_cons_cons, List.zip_nil_left, List.foldlM_cons, hcopy]
  rfl

end BuildSnapshot

/-! ## A search of rows is a best-first search -/

/-- The rows below the number of rows have scores. -/
def rowScore (nRows : ℕ) (sim : ℕ → ℤ) (row : ℕ) : Option ℤ := if row < nRows then some (sim row) else none

namespace RowBeam

open BestFirst

variable {nRows : ℕ} {sim : ℕ → ℤ} {ef : ℕ} {b : RowBeam} {row : ℕ} {next : ℕ → List ℕ}

/-- The rows that are marked are those that were visited. -/
def toBeam (nRows : ℕ) (b : RowBeam) : Beam ℕ ℤ :=
  ⟨(Finset.range nRows).filter b.scratch.Marked, b.candidates, b.found⟩

lemma mem_visited_toBeam {x : ℕ} : x ∈ (b.toBeam nRows).visited ↔ x < nRows ∧ b.scratch.Marked x := by
  rw [toBeam, Finset.mem_filter, Finset.mem_range]

lemma filter_visit (hrow : row < nRows) (h : ¬b.scratch.Marked row) :
    (Finset.range nRows).filter (b.scratch.visit row).2.Marked =
      insert row (b.toBeam nRows).visited := by
  ext x
  rw [Finset.mem_filter, Finset.mem_insert, mem_visited_toBeam, Finset.mem_range,
    (Scratch.visit_of_not_marked h).2]
  constructor
  · rintro ⟨hx, rfl | hmarked⟩
    · exact Or.inl rfl
    · exact Or.inr ⟨hx, hmarked⟩
  · rintro (rfl | ⟨hx, hmarked⟩)
    · exact ⟨hrow, Or.inl rfl⟩
    · exact ⟨hx, Or.inr hmarked⟩

lemma look_of_le (h : nRows ≤ row) : b.look nRows sim ef row = b := if_neg (by omega)

/-- To look at a row is to look at it in the search that it stands for. -/
lemma toBeam_look (hrow : row < nRows) : (b.look nRows sim ef row).toBeam nRows =
    BestFirst.look rowRanking (rowScore nRows sim) ef (b.toBeam nRows) row := by
  have hscore : rowScore nRows sim row = some (sim row) := if_pos hrow
  unfold look BestFirst.look
  rw [if_pos hrow, hscore]
  by_cases hmarked : b.scratch.Marked row
  · rw [if_pos (mem_visited_toBeam.mpr ⟨hrow, hmarked⟩), Scratch.visit_of_marked hmarked]
    rfl
  · rw [if_neg fun h => hmarked (mem_visited_toBeam.mp h).2]
    obtain ⟨hfresh, -⟩ := Scratch.visit_of_not_marked hmarked
    rcases hvisit : b.scratch.visit row with ⟨fresh, scratch⟩
    rw [hvisit] at hfresh
    dsimp only at hfresh ⊢
    have hfilter := filter_visit hrow hmarked
    rw [hvisit] at hfilter
    rw [if_pos hfresh, toBeam, hfilter]
    rfl

/-- To enter a row is to look at it while nothing is dropped. -/
lemma toBeam_enter (hrow : row < nRows) (hroom : b.found.length < ef) :
    (b.enter nRows sim row).toBeam nRows =
      BestFirst.look rowRanking (rowScore nRows sim) ef (b.toBeam nRows) row := by
  rw [← toBeam_look hrow]
  have hkeep : BestFirst.trim ef (push rowRanking (-sim row, row) b.found) =
      push rowRanking (-sim row, row) b.found := by
    rw [BestFirst.trim, length_push, Nat.sub_eq_zero_of_le hroom, List.drop_zero]
  unfold enter look
  rw [hkeep]

lemma toBeam_foldl_look (ys : List ℕ) : (ys.foldl (look nRows sim ef) b).toBeam nRows =
    (ys.filter (· < nRows)).foldl (BestFirst.look rowRanking (rowScore nRows sim) ef)
      (b.toBeam nRows) := by
  induction ys generalizing b with
  | nil => rfl
  | cons y ys ih =>
    rw [List.foldl_cons, ih]
    by_cases hy : y < nRows
    · rw [toBeam_look hy, List.filter_cons_of_pos (by simpa using hy), List.foldl_cons]
    · rw [look_of_le (by omega), List.filter_cons_of_neg (by simpa using hy)]

/-- A step is a step of the search that it stands for. -/
lemma toBeam_step : (b.step nRows sim ef next).map (toBeam nRows) =
    BestFirst.step rowRanking (rowScore nRows sim) (fun x => (next x).filter (· < nRows)) ef
      (b.toBeam nRows) := by
  unfold step BestFirst.step
  have hcandidates : (b.toBeam nRows).candidates = b.candidates := rfl
  rw [hcandidates]
  cases hb : b.candidates with
  | nil => rfl
  | cons p rest =>
    obtain ⟨score, row⟩ := p
    have hover : isOver rowRanking ef (b.toBeam nRows) score =
        (decide (ef ≤ b.found.length) && b.found.head?.any fun worst => decide (score < -worst.1)) := rfl
    dsimp only
    rw [hover]
    split_ifs
    · rfl
    · rw [Option.map_some, toBeam_foldl_look]
      rfl

/-- A run is a run of the search that it stands for. -/
lemma toBeam_run (n : ℕ) : (b.run nRows sim ef next n).toBeam nRows =
    BestFirst.run rowRanking (rowScore nRows sim) (fun x => (next x).filter (· < nRows)) ef n
      (b.toBeam nRows) := by
  induction n generalizing b with
  | zero => rfl
  | succ n ih =>
    have hstep : (b.step nRows sim ef next).map (toBeam nRows) = _ := toBeam_step
    unfold run BestFirst.run
    cases hb : b.step nRows sim ef next with
    | none =>
      rw [hb, Option.map_none] at hstep
      rw [← hstep]
    | some b' =>
      rw [hb, Option.map_some] at hstep
      rw [← hstep]
      exact ih

/-- Entering rows is looking at them while nothing is dropped. -/
lemma toBeam_foldl_enter (ys : List ℕ) (hroom : b.found.length + ys.length ≤ ef) :
    (ys.foldl (enter nRows sim) b).toBeam nRows =
      (ys.filter (· < nRows)).foldl (BestFirst.look rowRanking (rowScore nRows sim) ef)
        (b.toBeam nRows) := by
  induction ys generalizing b with
  | nil => rfl
  | cons y ys ih =>
    rw [List.length_cons] at hroom
    have hlength : (b.enter nRows sim y).found.length ≤ b.found.length + 1 := by
      unfold enter
      split_ifs
      · dsimp only
        split_ifs
        · exact (length_push _ _).le
        · exact Nat.le_succ _
      · exact Nat.le_succ _
    rw [List.foldl_cons, ih (by omega)]
    by_cases hy : y < nRows
    · have henter : (b.enter nRows sim y).toBeam nRows = BestFirst.look rowRanking
          (rowScore nRows sim) ef (b.toBeam nRows) y := toBeam_enter hy (by omega)
      rw [henter, List.filter_cons_of_pos (by simpa using hy), List.foldl_cons]
    · have hsame : b.enter nRows sim y = b := if_neg hy
      rw [hsame, List.filter_cons_of_neg (by simpa using hy)]

/-- A search begins with no rows visited. -/
lemma toBeam_reset (scratch : Scratch) : toBeam nRows ⟨scratch.reset, [], []⟩ = ⟨∅, [], []⟩ := by
  rw [toBeam, Finset.filter_eq_empty_iff.mpr fun x _ => scratch.not_marked_reset x]

variable {entries : List ℕ}

/-- The search behind its entries. -/
lemma toBeam_entered (scratch : Scratch) {wide : ℕ} (hwide : entries.length ≤ wide) :
    (entries.foldl (enter nRows sim) ⟨scratch.reset, [], []⟩).toBeam nRows =
      (entries.filter (· < nRows)).foldl (BestFirst.look rowRanking (rowScore nRows sim) wide)
        ⟨∅, [], []⟩ := by
  rw [toBeam_foldl_enter entries (by simpa using hwide), toBeam_reset]

/-- A search of rows comes to its end. -/
lemma step_run_entered (scratch : Scratch) :
    BestFirst.step rowRanking (rowScore nRows sim) (fun x => (next x).filter (· < nRows)) ef
      (((entries.foldl (enter nRows sim) ⟨scratch.reset, [], []⟩).run nRows sim ef next
        (entries.length + nRows)).toBeam nRows) = none := by
  have hrange : ∀ ys : List ℕ, ∀ y ∈ ys.filter (· < nRows), y ∈ Finset.range nRows := by
    intro ys y hy
    exact Finset.mem_range.mpr (by simpa using (List.mem_filter.mp hy).2)
  have hmeasure := measure_foldl_look (hrange entries) rowRanking (rowScore nRows sim) entries.length
    ⟨∅, [], []⟩
  rw [← toBeam_entered scratch le_rfl, Finset.sdiff_empty, Finset.card_range] at hmeasure
  rw [toBeam_run]
  refine step_run (fun x => hrange (next x)) (hmeasure.trans ?_)
  simp

/-- A search of rows finds no row twice. -/
lemma nodup_run_entered (scratch : Scratch) (n : ℕ) :
    (((entries.foldl (enter nRows sim) ⟨scratch.reset, [], []⟩).run nRows sim ef next n).found.map
      (·.2)).Nodup := by
  have hempty : Sound (rowScore nRows sim) (fun _ => True) (⟨∅, [], []⟩ : Beam ℕ ℤ) :=
    ⟨fun _ _ => trivial, fun _ hp => absurd hp List.not_mem_nil,
      fun _ hp => absurd hp List.not_mem_nil, List.nodup_nil⟩
  have hentered : Sound (rowScore nRows sim) (fun _ => True)
      ((entries.foldl (enter nRows sim) ⟨scratch.reset, [], []⟩).toBeam nRows) := by
    rw [toBeam_entered scratch le_rfl]
    exact hempty.foldl_look fun _ _ => trivial
  have hrun : Sound (rowScore nRows sim) (fun _ => True)
      (BestFirst.run rowRanking (rowScore nRows sim) (fun x => (next x).filter (· < nRows)) ef n
        ((entries.foldl (enter nRows sim) ⟨scratch.reset, [], []⟩).toBeam nRows)) :=
    hentered.run fun _ _ _ _ => trivial
  rw [← toBeam_run] at hrun
  exact hrun.once

lemma lt_of_scored (h : (rowScore nRows sim row).isSome = true) : row < nRows := by
  by_contra hge
  have hnone : rowScore nRows sim row = none := if_neg hge
  rw [hnone] at h
  exact Bool.false_ne_true h

/-- Rows beyond the number of rows are never reached. -/
lemma reached_filter (x : ℕ) : Reached (rowScore nRows sim) (fun x => (next x).filter (· < nRows))
    (entries.filter (· < nRows)) x ↔ Reached (rowScore nRows sim) next entries x := by
  constructor
  · intro h
    induction h with
    | entry hx hscore => exact .entry (List.mem_of_mem_filter hx) hscore
    | edge _ hy hscore ih => exact ih.edge (List.mem_of_mem_filter hy) hscore
  · intro h
    induction h with
    | entry hx hscore => exact .entry (List.mem_filter.mpr ⟨hx, by simpa using lt_of_scored hscore⟩) hscore
    | edge _ hy hscore ih =>
      exact ih.edge (List.mem_filter.mpr ⟨hy, by simpa using lt_of_scored hscore⟩) hscore

/-- What can be reached depends on the neighbours of rows only. -/
lemma reached_congr {next' : ℕ → List ℕ} (hnext : ∀ x < nRows, next x = next' x) (x : ℕ) :
    Reached (rowScore nRows sim) next entries x ↔ Reached (rowScore nRows sim) next' entries x := by
  have hmono : ∀ f f' : ℕ → List ℕ, (∀ x < nRows, f x = f' x) →
      Reached (rowScore nRows sim) f entries x → Reached (rowScore nRows sim) f' entries x := by
    intro f f' hf h
    induction h with
    | entry hx hscore => exact .entry hx hscore
    | edge hx hy hscore ih => exact ih.edge (hf _ (lt_of_scored hx.scored) ▸ hy) hscore
  exact ⟨hmono next next' hnext, hmono next' next fun y hy => (hnext y hy).symm⟩

/-- A search of rows that may keep all that can be reached finds exactly this. -/
lemma mem_run_entered (scratch : Scratch) {nodes : Finset ℕ}
    (hnodes : ∀ x, x ∈ nodes ↔ Reached (rowScore nRows sim) next entries x) (hwide : nodes.card ≤ ef)
    (x : ℕ) :
    x ∈ ((entries.foldl (enter nRows sim) ⟨scratch.reset, [], []⟩).run nRows sim ef next
      (entries.length + nRows)).found.map (·.2) ↔ x ∈ nodes := by
  have hnodes' : ∀ x, x ∈ nodes ↔ Reached (rowScore nRows sim) (fun x => (next x).filter (· < nRows))
      (entries.filter (· < nRows)) x := fun x => (hnodes x).trans (reached_filter x).symm
  have hempty : Covers (rowScore nRows sim) (fun x => (next x).filter (· < nRows))
      (entries.filter (· < nRows)) none (⟨∅, [], []⟩ : Beam ℕ ℤ) :=
    ⟨fun _ hp => absurd hp List.not_mem_nil, fun _ hp => absurd hp List.not_mem_nil,
      fun _ hp => absurd hp List.not_mem_nil, List.nodup_nil,
      fun _ hx => absurd hx (Finset.notMem_empty _), fun _ hx => absurd hx List.not_mem_nil⟩
  obtain ⟨hentered, hseeds, -⟩ : Covers (rowScore nRows sim) (fun x => (next x).filter (· < nRows))
      (entries.filter (· < nRows)) none ((entries.filter (· < nRows)).foldl
        (BestFirst.look rowRanking (rowScore nRows sim) (entries.length + nodes.card)) ⟨∅, [], []⟩) ∧
      _ := hempty.foldl_look (fun z hz => (hnodes' z).mpr hz) (Nat.le_add_left _ _)
        fun y hy hscore => .entry hy hscore
  rw [← toBeam_entered scratch (Nat.le_add_right _ _)] at hentered hseeds
  obtain ⟨hrun, hsub⟩ : Covers (rowScore nRows sim) (fun x => (next x).filter (· < nRows))
      (entries.filter (· < nRows)) none
      (BestFirst.run rowRanking (rowScore nRows sim) (fun x => (next x).filter (· < nRows)) ef
        (entries.length + nRows)
        ((entries.foldl (enter nRows sim) ⟨scratch.reset, [], []⟩).toBeam nRows)) ∧ _ :=
    hentered.run (fun z hz => (hnodes' z).mpr hz) hwide
  rw [← toBeam_run] at hrun hsub
  exact hrun.done (fun z hz => hsub (hseeds z hz)) hnodes' hwide (step_run_entered scratch) x

end RowBeam

open BestFirst in
/-- **Wide searches are exhaustive.**  A search of a layer from distinct nodes comes to its end and
finds no node twice, and if it may keep as many nodes as can be reached through nodes with vectors, it
finds exactly these; so does a search of rows from any rows over a snapshot of a table of cells with
less than 2 ^ 32 links, which lists exactly the links of the cells. -/
theorem search_exhaustive :
    (∀ {E F : Type} (fl : Floats E F) (g : HnswGraph) (query : E) (entryPoints : List ℕ) (ef layer : ℕ)
      (embs : ℕ → Option E), entryPoints.Nodup →
      step (HnswGraph.ranking fl) (fun x => (embs x).map (fl.dot query)) (g.links layer) ef
        (run (HnswGraph.ranking fl) (fun x => (embs x).map (fl.dot query)) (g.links layer) ef
          (entryPoints.length + g.linkCount layer)
          (start (HnswGraph.ranking fl) (fun x => (embs x).map (fl.dot query)) entryPoints)) = none ∧
      (g.searchLayer fl query entryPoints ef layer embs).Nodup ∧
      ∀ nodes : Finset ℕ, (∀ x, x ∈ nodes ↔
        Reached (fun x => (embs x).map (fl.dot query)) (g.links layer) entryPoints x) →
        nodes.card ≤ ef → ∀ x, x ∈ g.searchLayer fl query entryPoints ef layer embs ↔ x ∈ nodes) ∧
    ∀ (lockedAdj : List (List ℕ)) (nRows maxl : ℕ), nRows * maxl ≤ lockedAdj.length →
      (lockedAdj.take (nRows * maxl)).flatten.length < 2 ^ 32 →
      ∃ snap, BuildSnapshot.fromLockedAdj lockedAdj nRows maxl = some snap ∧
        (∀ row layer, row < nRows → layer < maxl →
          snap.layerNeighbors row layer maxl = lockedAdj.getD (row * maxl + layer) []) ∧
        ∀ (dim : ℕ) (query arena : List ℤ) (entryRows : List ℕ) (ef layer : ℕ) (scratch : Scratch),
          RowBeam.step snap.nRows (rowSim dim query arena) ef (snap.layerNeighbors · layer maxl)
            (searchedRows dim snap query entryRows ef layer arena scratch maxl) = none ∧
          (searchLayerRows dim snap query entryRows ef layer arena scratch maxl).1.Nodup ∧
          ∀ nodes : Finset ℕ, layer < maxl → (∀ x, x ∈ nodes ↔ Reached
            (rowScore nRows (rowSim dim query arena)) (fun row => lockedAdj.getD (row * maxl + layer) [])
              entryRows x) →
            nodes.card ≤ ef →
              ∀ x, x ∈ (searchLayerRows dim snap query entryRows ef layer arena scratch maxl).1 ↔ x ∈ nodes := by
  constructor
  · intro E F fl g query entryPoints ef layer embs hnodup
    refine ⟨HnswGraph.searchLayer_ends query entryPoints ef layer embs,
      HnswGraph.nodup_searchLayer hnodup, fun nodes hnodes hwide x => ?_⟩
    exact mem_search_iff hnodup hnodes hwide (HnswGraph.searchLayer_ends query entryPoints ef layer embs) x
  · intro lockedAdj nRows maxl hcells hlinks
    have hsnap := BuildSnapshot.fromLockedAdj_eq hcells hlinks
    have hlists := fun row layer (hrow : row < nRows) (hlayer : layer < maxl) =>
      BuildSnapshot.layerNeighbors_fromLockedAdj hcells hlinks hsnap hrow hlayer
    refine ⟨_, hsnap, hlists, fun dim query arena entryRows ef layer scratch => ⟨?_, ?_, ?_⟩⟩
    · exact Option.map_eq_none_iff.mp (RowBeam.toBeam_step.trans (RowBeam.step_run_entered scratch))
    · exact RowBeam.nodup_run_entered scratch _
    · intro nodes hlayer hnodes hwide x
      refine RowBeam.mem_run_entered scratch (fun z => (hnodes z).trans ?_) hwide x
      exact RowBeam.reached_congr (fun row hrow => (hlists row layer hrow hlayer).symm) z

/-- An entry that is given twice is found twice, and offsets of 2 ^ 32 links are wrong, so that taking
the snapshot panics. -/
theorem entered_twice_or_too_many :
    (¬(HnswGraph.new.searchLayer (⟨fun _ _ => 0, Int.neg, fun a b => decide (a ≤ b),
      fun a b => decide (a < b), fun _ => 0⟩ : Floats ℤ ℤ) 0 [1, 1] 2 0 fun _ => some 0).Nodup) ∧
    BuildSnapshot.fromLockedAdj [List.replicate (2 ^ 32) 0] 1 1 = none := by
  constructor
  · decide +kernel
  · exact BuildSnapshot.fromLockedAdj_overflow List.length_replicate

end ChittaField.Vectors
