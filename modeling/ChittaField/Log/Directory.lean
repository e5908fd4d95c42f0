import Mathlib.Data.Char
import Mathlib.Data.List.AList
import ChittaField.Log.Reader

/-!
# The segments directory

A segment file is named after its writer and the first sequence number it may hold,
`{:08x}_{:012}.seg`.  Every reader of the directory lists the files with such a name in the order
of their names, and among the segments of one writer this is the order of the sequence numbers
(`segmentPath_lt`).
-/

namespace ChittaField

/-! ## Segment names -/

/-- The value of a hexadecimal digit. -/
def hexVal (c : Char) : Option ℕ :=
  if '0' ≤ c ∧ c ≤ '9' then some (c.toNat - 48)
  else if 'a' ≤ c ∧ c ≤ 'f' then some (c.toNat - 87)
  else if 'A' ≤ c ∧ c ≤ 'F' then some (c.toNat - 55)
  else none

/-- A decimal digit. -/
def isAsciiDigit (c : Char) : Bool := '0' ≤ c ∧ c ≤ '9'

/-- `u32::from_str_radix` with radix 16: an optional sign, then at least one digit. -/
def fromStrRadix16 (s : List Char) : Option InstanceId :=
  let ds := match s with
    | '+' :: t => t
    | t => t
  if ds.isEmpty then none
  else match ds.mapM hexVal with
    | none => none
    | some vs => if Positional.value 16 vs < 2 ^ 32 then some (Positional.value 16 vs) else none

/-- Split a string at the first occurrence of a character. -/
def splitOnce (c : Char) (s : List Char) : Option (List Char × List Char) :=
  match s.dropWhile (· ≠ c) with
  | [] => none
  | _ :: t => some (s.takeWhile (· ≠ c), t)

/-- The name without its extension `.seg`. -/
def stripSeg (name : FileName) : Option (List Char) :=
  if name.drop (name.length - 4) = ".seg".toList then some (name.take (name.length - 4)) else none

/-- The writer and the number in the name of a segment. -/
def nameParts (name : FileName) : Option (List Char × List Char) :=
  (stripSeg name).bind (splitOnce '_')

/-- Eight hexadecimal and twelve decimal digits. -/
def isValidSegmentName (name : FileName) : Bool :=
  match nameParts name with
  | none => false
  | some (instanceHex, seqno) =>
    instanceHex.length = 8 ∧ instanceHex.all (fun c => (hexVal c).isSome) ∧
      seqno.length = 12 ∧ seqno.all isAsciiDigit

/-- The writer and the first sequence number of a segment, by its name. -/
def segmentIdentity (name : FileName) : Option (InstanceId × ℕ) :=
  if isValidSegmentName name then
    (nameParts name).bind fun (w, first) =>
      (fromStrRadix16 w).map fun w =>
        (w, Positional.value 10 (first.map fun c => c.toNat - 48))
  else none

/-- The part of a file name in front of the first underscore. -/
def writerPart (name : FileName) : Option (List Char) := (splitOnce '_' name).map Prod.fst

/-- The instance a segment is attributed to; `0` where the name does not tell. -/
def instOf (name : FileName) : InstanceId := ((writerPart name).bind fromStrRadix16).getD 0

/-- `{:08x}` of an instance id. -/
def instHex (inst : InstanceId) : List Char := (Positional.digits 16 8 inst).map Nat.digitChar

/-- `{:012}` of a sequence number: longer numbers are written out in full. -/
def seqnoDec (n : ℕ) : List Char :=
  if n < 10 ^ 12 then (Positional.digits 10 12 n).map Nat.digitChar else Nat.toDigits 10 n

/-- The name of the segment that starts at `firstSeqno`. -/
def segmentPath (inst : InstanceId) (firstSeqno : ℕ) : FileName :=
  instHex inst ++ '_' :: seqnoDec firstSeqno ++ ".seg".toList

/-! ## The directory -/

/-- The segments directory: its files by name, and the names in its archive of foreign segments. -/
structure SegDir where
  segs : AList fun _ : FileName => Bytes
  archive : List FileName

namespace SegDir

/-- A directory without files. -/
def empty : SegDir := ⟨∅, []⟩

/-- The bytes of a segment file. -/
def read (dir : SegDir) (name : FileName) : Option Bytes := dir.segs.lookup name

/-- Create or overwrite a segment file. -/
def write (dir : SegDir) (name : FileName) (bytes : Bytes) : SegDir :=
  { dir with segs := dir.segs.insert name bytes }

/-- Remove a segment file. -/
def remove (dir : SegDir) (name : FileName) : SegDir :=
  { dir with segs := dir.segs.erase name }

@[simp] lemma read_write_self (dir : SegDir) (name : FileName) (bytes : Bytes) :
    (dir.write name bytes).read name = some bytes :=
  AList.lookup_insert _

lemma read_write_of_ne (dir : SegDir) {name name' : FileName} (bytes : Bytes)
    (h : name' ≠ name) : (dir.write name bytes).read name' = dir.read name' :=
  AList.lookup_insert_ne h

@[simp] lemma read_remove_self (dir : SegDir) (name : FileName) :
    (dir.remove name).read name = none :=
  AList.lookup_erase _ _

lemma read_remove_of_ne (dir : SegDir) {name name' : FileName} (h : name' ≠ name) :
    (dir.remove name).read name' = dir.read name' :=
  AList.lookup_erase_ne h

@[simp] lemma write_archive (dir : SegDir) (name : FileName) (bytes : Bytes) :
    (dir.write name bytes).archive = dir.archive := rfl

/-- The directory after a reader left `bytes` of a file that held `old`. -/
def repair (dir : SegDir) (name : FileName) (old bytes : Bytes) : SegDir :=
  if bytes = old then dir else dir.write name bytes

lemma read_repair_of_ne (dir : SegDir) {name name' : FileName} (old bytes : Bytes)
    (h : name' ≠ name) : (dir.repair name old bytes).read name' = dir.read name' := by
  unfold repair
  split
  · rfl
  · exact dir.read_write_of_ne bytes h

lemma read_repair_self {dir : SegDir} {name : FileName} {old : Bytes} (bytes : Bytes)
    (h : dir.read name = some old) : (dir.repair name old bytes).read name = some bytes := by
  unfold repair
  split
  · rename_i heq
    rw [heq, h]
  · exact dir.read_write_self name bytes

@[simp] lemma repair_archive (dir : SegDir) (name : FileName) (old bytes : Bytes) :
    (dir.repair name old bytes).archive = dir.archive := by
  unfold repair
  split <;> rfl

end SegDir

/-- All segment files with a valid name, in the order of their names. -/
def collectAllSegments (dir : SegDir) : List FileName :=
  (dir.segs.keys.filter isValidSegmentName).insertionSort (· ≤ ·)

/-- The segments of one instance. -/
def collectInstanceSegments (dir : SegDir) (inst : InstanceId) : List FileName :=
  (collectAllSegments dir).filter ((instHex inst ++ ['_']).isPrefixOf ·)

/-- The segments of the other instances. -/
def collectForeignSegments (dir : SegDir) (inst : InstanceId) : List FileName :=
  (collectAllSegments dir).filter (!(instHex inst ++ ['_']).isPrefixOf ·)

lemma mem_collectAllSegments {dir : SegDir} {name : FileName} :
    name ∈ collectAllSegments dir ↔ (dir.read name).isSome ∧ isValidSegmentName name := by
  simp [collectAllSegments, SegDir.read, AList.lookup_isSome, ← AList.mem_keys]

lemma collectAllSegments_sorted (dir : SegDir) : (collectAllSegments dir).Pairwise (· < ·) := by
  have hle : (collectAllSegments dir).Pairwise (· ≤ ·) := List.pairwise_insertionSort _ _
  have hnodup : (collectAllSegments dir).Nodup :=
    (List.perm_insertionSort _ _).nodup_iff.mpr ((dir.segs.keys_nodup).filter _)
  exact (hle.and hnodup).imp fun h => lt_of_le_of_ne h.1 h.2

/-- The listing is the sorted list of the valid names. -/
lemma collectAllSegments_eq {dir : SegDir} {names : List FileName}
    (hsorted : names.Pairwise (· < ·))
    (hmem : ∀ name, name ∈ names ↔ (dir.read name).isSome ∧ isValidSegmentName name) :
    collectAllSegments dir = names := by
  refine List.Perm.eq_of_pairwise (fun a b _ _ hab hba => absurd hab (lt_asymm hba))
    (collectAllSegments_sorted dir) hsorted ?_
  refine (List.perm_ext_iff_of_nodup ?_ ?_).mpr fun name => ?_
  · exact (collectAllSegments_sorted dir).imp fun h => h.ne
  · exact hsorted.imp fun h => h.ne
  · rw [mem_collectAllSegments, hmem]

/-! ## Names that the writer makes -/

lemma splitOnce_append {c : Char} {a : List Char} (h : c ∉ a) (b : List Char) :
    splitOnce c (a ++ c :: b) = some (a, b) := by
  have hne : ∀ x ∈ a, decide (x ≠ c) = true := fun x hx => by
    simpa using ne_of_mem_of_not_mem hx h
  rw [splitOnce, List.dropWhile_append_of_pos hne, List.takeWhile_append_of_pos hne]
  simp

lemma splitOnce_eq_some {c : Char} {s a b : List Char} (h : splitOnce c s = some (a, b)) :
    s = a ++ c :: b ∧ c ∉ a := by
  induction s generalizing a with
  | nil => simp [splitOnce] at h
  | cons x s ih =>
    by_cases hx : x = c
    · simp only [splitOnce, hx, ne_eq, not_true_eq_false, decide_false, Bool.false_eq_true,
        not_false_eq_true, List.dropWhile_cons_of_neg, List.takeWhile_cons_of_neg,
        Option.some.injEq, Prod.mk.injEq] at h
      obtain ⟨rfl, rfl⟩ := h
      simp [hx]
    · have hs : ∃ a', splitOnce c s = some (a', b) ∧ a = x :: a' := by
        have hdrop : (x :: s).dropWhile (fun y => decide (y ≠ c)) =
            s.dropWhile fun y => decide (y ≠ c) := List.dropWhile_cons_of_pos (by simpa using hx)
        have htake : (x :: s).takeWhile (fun y => decide (y ≠ c)) =
            x :: s.takeWhile fun y => decide (y ≠ c) :=
          List.takeWhile_cons_of_pos (by simpa using hx)
        unfold splitOnce at h ⊢
        rw [hdrop, htake] at h
        split at h
        · cases h
        · cases h
          exact ⟨_, rfl, rfl⟩
      obtain ⟨a', hs, rfl⟩ := hs
      obtain ⟨rfl, hc⟩ := ih hs
      exact ⟨rfl, by simp [hc, Ne.symm hx]⟩

lemma stripSeg_append (a : List Char) : stripSeg (a ++ ".seg".toList) = some a := by
  have hlen : (a ++ ".seg".toList).length - 4 = a.length := by
    simp
  rw [stripSeg, hlen, List.drop_left, List.take_left, if_pos rfl]

lemma hexVal_digitChar {d : ℕ} (h : d < 16) : hexVal (Nat.digitChar d) = some d := by
  interval_cases d <;> decide

lemma isAsciiDigit_digitChar {d : ℕ} (h : d < 10) : isAsciiDigit (Nat.digitChar d) = true := by
  interval_cases d <;> decide

lemma digitChar_ne_underscore {d : ℕ} (h : d < 16) : Nat.digitChar d ≠ '_' := by
  interval_cases d <;> decide

lemma digitChar_lt {i j : ℕ} (hij : i < j) (hj : j < 16) : Nat.digitChar i < Nat.digitChar j := by
  interval_cases j <;> interval_cases i <;> decide

@[simp] lemma length_instHex (inst : InstanceId) : (instHex inst).length = 8 := by
  simp [instHex]

lemma underscore_notMem_instHex (inst : InstanceId) : '_' ∉ instHex inst := by
  intro h
  obtain ⟨d, hd, heq⟩ := List.mem_map.mp h
  exact digitChar_ne_underscore (Positional.lt_of_mem_digits (by decide) hd) heq

lemma mapM_hexVal_instHex (inst : InstanceId) :
    (instHex inst).mapM hexVal = some (Positional.digits 16 8 inst) := by
  rw [instHex]
  generalize hds : Positional.digits 16 8 inst = ds
  have hlt : ∀ d ∈ ds, d < 16 := fun d hd =>
    Positional.lt_of_mem_digits (by decide) (hds ▸ hd)
  clear hds
  induction ds with
  | nil => rfl
  | cons d ds ih =>
    rw [List.map_cons, List.mapM_cons, hexVal_digitChar (hlt d List.mem_cons_self),
      ih (List.forall_mem_cons.mp hlt).2]
    rfl

/-- An instance id is read back from its hexadecimal form. -/
lemma fromStrRadix16_instHex {inst : InstanceId} (h : inst < 2 ^ 32) :
    fromStrRadix16 (instHex inst) = some inst := by
  have hmapM := mapM_hexVal_instHex inst
  have hval : Positional.value 16 (Positional.digits 16 8 inst) = inst :=
    Positional.value_digits_of_lt (by simpa using h)
  have hcons : ∃ c t, instHex inst = c :: t ∧ c ≠ '+' := by
    refine ⟨_, _, rfl, ?_⟩
    have : inst / 16 ^ 7 % 16 < 16 := Nat.mod_lt _ (by decide)
    generalize inst / 16 ^ 7 % 16 = d at this
    interval_cases d <;> decide
  obtain ⟨c, t, hct, hplus⟩ := hcons
  rw [hct] at hmapM ⊢
  unfold fromStrRadix16
  split
  · rename_i ds heq
    cases heq
    exact absurd rfl hplus
  · simpa [hmapM, hval] using h

lemma writerPart_segmentPath (inst : InstanceId) (n : ℕ) :
    writerPart (segmentPath inst n) = some (instHex inst) := by
  rw [writerPart, segmentPath, List.append_assoc, List.cons_append,
    splitOnce_append (underscore_notMem_instHex inst)]
  rfl

lemma instOf_segmentPath {inst : InstanceId} (h : inst < 2 ^ 32) (n : ℕ) :
    instOf (segmentPath inst n) = inst := by
  simp [instOf, writerPart_segmentPath, fromStrRadix16_instHex h]

lemma seqnoDec_of_lt {n : ℕ} (h : n < 10 ^ 12) :
    seqnoDec n = (Positional.digits 10 12 n).map Nat.digitChar := if_pos h

lemma nameParts_segmentPath (inst : InstanceId) (n : ℕ) :
    nameParts (segmentPath inst n) = some (instHex inst, seqnoDec n) := by
  rw [nameParts, segmentPath, stripSeg_append, Option.bind_some,
    splitOnce_append (underscore_notMem_instHex inst)]

/-- The names of the writer are valid as long as the sequence number has at most twelve digits. -/
lemma isValidSegmentName_segmentPath (inst : InstanceId) {n : ℕ} (h : n < 10 ^ 12) :
    isValidSegmentName (segmentPath inst n) = true := by
  have hhex : ∀ c ∈ instHex inst, (hexVal c).isSome = true := by
    intro c hc
    obtain ⟨d, hd, rfl⟩ := List.mem_map.mp hc
    rw [hexVal_digitChar (Positional.lt_of_mem_digits (by decide) hd)]
    rfl
  have hdec : ∀ c ∈ seqnoDec n, isAsciiDigit c = true := by
    intro c hc
    rw [seqnoDec_of_lt h] at hc
    obtain ⟨d, hd, rfl⟩ := List.mem_map.mp hc
    exact isAsciiDigit_digitChar (Positional.lt_of_mem_digits (by decide) hd)
  have hlen : (seqnoDec n).length = 12 := by
    rw [seqnoDec_of_lt h]
    simp
  rw [isValidSegmentName, nameParts_segmentPath]
  simp only [length_instHex, hlen, decide_eq_true_eq, List.all_eq_true]
  exact ⟨trivial, hhex, trivial, hdec⟩

/-- Tails do not change the order of two strings of one length. -/
lemma append_lt_append {a b : List Char} (h : a < b) (hlen : a.length = b.length)
    (c d : List Char) : a ++ c < b ++ d := by
  induction a generalizing b with
  | nil =>
    rw [List.eq_nil_of_length_eq_zero hlen.symm] at h
    exact absurd h (lt_irrefl _)
  | cons x a ih =>
    cases b with
    | nil => simp at hlen
    | cons y b =>
      rw [List.cons_append, List.cons_append, List.cons_lt_cons_iff]
      rcases List.cons_lt_cons_iff.mp h with hxy | ⟨rfl, hab⟩
      · exact Or.inl hxy
      · exact Or.inr ⟨rfl, ih hab (by simpa using hlen)⟩

/-- Among the segments of one writer the order of the names is the order of the sequence
numbers. -/
lemma segmentPath_lt (inst : InstanceId) {m n : ℕ} (hmn : m < n) (hn : n < 10 ^ 12) :
    segmentPath inst m < segmentPath inst n := by
  have hlt : (Positional.digits 10 12 m).map Nat.digitChar <
      (Positional.digits 10 12 n).map Nat.digitChar :=
    Positional.map_digits_lt (by decide) (fun i j hij hj => digitChar_lt hij (by omega)) hmn hn
  rw [segmentPath, segmentPath, seqnoDec_of_lt hn, seqnoDec_of_lt (hmn.trans hn),
    List.append_assoc, List.append_assoc, List.cons_append, List.cons_append]
  refine List.append_left_lt ?_
  rw [List.cons_lt_cons_iff]
  exact Or.inr ⟨rfl, append_lt_append hlt (by simp) _ _⟩

end ChittaField
