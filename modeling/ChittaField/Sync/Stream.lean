import ChittaField.Log.Follow

/-!
# A segment that a peer writes

A peer appends to its segment while others read it, so a reader sees some beginning of what the peer
writes (`Stream.view`).  Reading on from the end of the `j`-th record delivers the records behind it
that are complete in the view, and returns where the last of them ends (`replayFromOffset_view`).
-/

namespace ChittaField

variable {F : Type}

/-- What a peer writes into a segment: a header and then records. -/
structure Stream (W : Wire F) where
  version : ℕ
  firstSeqno : ℕ
  header : Bytes
  chained : ChainedHeader version firstSeqno header
  entries : List (Entry F)
  valid : ∀ e ∈ entries, e.Valid W

namespace Stream

variable {W : Wire F} (s : Stream W)

/-- All that the peer writes. -/
def bytes : Bytes := s.header ++ encodeAll W (records s.entries)

/-- The first `n` bytes. -/
def view (n : ℕ) : Bytes := s.bytes.take n

/-- Where the first `j` records end. -/
def offset (j : ℕ) : ℕ := s.header.length + (encodeAll W (records (s.entries.take j))).length

/-- How many records are complete in the first `n` bytes. -/
def complete (n : ℕ) : ℕ := (cutEntries W (n - s.header.length) s.entries).1.length

/-- The records from the `i`-th up to the `j`-th. -/
def recs (i j : ℕ) : List (ℕ × Op F) :=
  ((s.entries.take j).drop i).map fun e => (e.record.seqno, e.op)

lemma complete_le (n : ℕ) : s.complete n ≤ s.entries.length :=
  (cutEntries_isInitial W _ _).length_le

lemma cutEntries_eq (n : ℕ) :
    (cutEntries W (n - s.header.length) s.entries).1 = s.entries.take (s.complete n) :=
  List.prefix_iff_eq_take.mp (cutEntries_isInitial W _ _)

lemma complete_eq_zero {n : ℕ} (h : n ≤ s.header.length) : s.complete n = 0 := by
  simp [complete, Nat.sub_eq_zero_of_le h]

lemma complete_mono {n m : ℕ} (h : n ≤ m) : s.complete n ≤ s.complete m :=
  cutEntries_mono W (Nat.sub_le_sub_right h _) _

@[simp] lemma complete_offset {j : ℕ} (h : j ≤ s.entries.length) : s.complete (s.offset j) = j := by
  rw [complete, offset, Nat.add_sub_cancel_left, cutEntries_encodeAll]
  simp [h]

/-- How many records are complete depends only on what the view shows. -/
lemma complete_congr {n m : ℕ} (h : s.view n = s.view m) : s.complete n = s.complete m := by
  have hlen : ∀ k, s.complete (s.view k).length = s.complete k := by
    intro k
    have hall : s.offset s.entries.length = s.bytes.length := by simp [offset, bytes]
    rcases le_total k s.bytes.length with hk | hk
    · rw [view, List.length_take, Nat.min_eq_left hk]
    · rw [view, List.length_take, Nat.min_eq_right hk]
      refine le_antisymm (s.complete_mono hk) ?_
      rw [← hall, s.complete_offset le_rfl]
      exact s.complete_le k
  rw [← hlen n, h, hlen]

lemma eight_le_header : 8 ≤ s.header.length := by
  rcases s.chained.length_eq with h | h <;> rw [h] <;> decide

@[simp] lemma recs_self (j : ℕ) : s.recs j j = [] := by simp [recs]

lemma recs_append {i j k : ℕ} (hij : i ≤ j) (hjk : j ≤ k) (hj : j ≤ s.entries.length) :
    s.recs i j ++ s.recs j k = s.recs i k := by
  have hk : s.entries.take k = s.entries.take j ++ (s.entries.take k).drop j := by
    conv_lhs => rw [← List.take_append_drop j (s.entries.take k), List.take_take,
      Nat.min_eq_left hjk]
  have hlen : (s.entries.take j).length = j := by simp [hj]
  have hdrop : (s.entries.take k).drop i =
      (s.entries.take j).drop i ++ (s.entries.take k).drop j := by
    conv_lhs => rw [hk]
    exact List.drop_append_of_le_length (by omega)
  rw [recs, recs, recs, hdrop, List.map_append]

/-- The magic of a segment tells its version, and the version the size of the header. -/
lemma readExact_view {n : ℕ} (h : 8 ≤ n) : ∃ magic bs,
    readExact 8 (s.view n) = some (magic, bs) ∧ segmentVersion magic = some s.version ∧
      headerSize s.version = s.header.length := by
  have hlen : 8 ≤ (s.view n).length := by
    rw [view, List.length_take, bytes, List.length_append]
    have := s.eight_le_header
    omega
  have htake : (s.view n).take 8 = s.header.take 8 := by
    rw [view, List.take_take, Nat.min_eq_left h, bytes,
      List.take_append_of_le_length s.eight_le_header]
  refine ⟨(s.view n).take 8, (s.view n).drop 8, by rw [readExact, if_pos hlen], ?_⟩
  rw [htake]
  have hchained := s.chained
  revert hchained
  generalize s.version = version
  generalize s.header = header
  rintro (⟨hfirst, head⟩ | ⟨hfirst, head, vsid⟩)
  · have hmagic : (headerV2 s.firstSeqno head).take 8 = segmentMagicV2 := rfl
    rw [hmagic]
    exact ⟨by decide, by simp [headerSize, headerV2, segmentMagicV2, head.2]⟩
  · have hmagic : (headerV3 s.firstSeqno head vsid).take 8 = segmentMagicV3 := rfl
    rw [hmagic]
    exact ⟨by decide, by simp [headerSize]⟩

/-- What a view shows behind the first `j` records: records, and the beginning of one. -/
lemma view_drop (n j : ℕ) : ∃ tail, (s.view n).drop (s.offset j) =
      encodeAll W (records ((s.entries.take (s.complete n)).drop j)) ++ tail ∧
    (tail.length < 4 ∨ readFrame s.version tail = .torn) := by
  have hdrop : s.bytes.drop (s.offset j) = encodeAll W (records (s.entries.drop j)) := by
    have hsplit : encodeAll W (records s.entries) =
        encodeAll W (records (s.entries.take j)) ++ encodeAll W (records (s.entries.drop j)) := by
      rw [← encodeAll_append, ← records_append, List.take_append_drop]
    rw [bytes, offset, hsplit, ← List.append_assoc]
    exact List.drop_left' (List.length_append)
  have hcut := cutEntries_drop W s.entries j (n - s.header.length)
  rw [Nat.sub_sub] at hcut
  refine ⟨(cutEntries W (n - s.offset j) (s.entries.drop j)).2, ?_,
    cutEntries_tail W s.chained.two_le _ fun e he => s.valid e (List.mem_of_mem_drop he)⟩
  rw [view, List.drop_take, hdrop, take_encodeAll, ← s.cutEntries_eq n, ← hcut]
  rfl

lemma offset_add (n j : ℕ) :
    s.offset j + (encodeAll W (records ((s.entries.take (s.complete n)).drop j))).length =
      s.offset (max j (s.complete n)) := by
  rcases le_total (s.complete n) j with h | h
  · rw [max_eq_left h, List.drop_eq_nil_of_le (by rw [List.length_take]; omega)]
    rfl
  · have hsplit : s.entries.take (s.complete n) =
        s.entries.take j ++ (s.entries.take (s.complete n)).drop j := by
      conv_lhs => rw [← List.take_append_drop j (s.entries.take (s.complete n)), List.take_take,
        Nat.min_eq_left h]
    have hlen : (encodeAll W (records (s.entries.take (s.complete n)))).length =
        (encodeAll W (records (s.entries.take j))).length +
          (encodeAll W (records ((s.entries.take (s.complete n)).drop j))).length := by
      conv_lhs => rw [hsplit]
      rw [records_append, encodeAll_append, List.length_append]
    rw [max_eq_right h, offset, offset, hlen, Nat.add_assoc]

lemma recs_max (n j : ℕ) : s.recs j (max j (s.complete n)) =
    ((s.entries.take (s.complete n)).drop j).map fun e => (e.record.seqno, e.op) := by
  rcases le_total (s.complete n) j with h | h
  · rw [max_eq_left h, recs_self, List.drop_eq_nil_of_le (by rw [List.length_take]; omega)]
    rfl
  · rw [max_eq_right h, recs]

/-- Reading a view on from the end of the `j`-th record. -/
lemma replayFromOffset_view (name : FileName) (n : ℕ) {j off : ℕ}
    (hoff : off = s.offset j ∨ off = 0 ∧ j = 0) :
    ∃ off', replayFromOffset W name (s.view n) off =
        .ok (off', s.recs j (max j (s.complete n))) ∧
      (off' = s.offset (max j (s.complete n)) ∨ off' = 0 ∧ max j (s.complete n) = 0) := by
  have hheader := s.eight_le_header
  by_cases hn : n < 8
  · -- not even the magic is there
    have hnone : readExact 8 (s.view n) = none := by
      rw [readExact, if_neg (by rw [view, List.length_take]; omega)]
    have hmax : max j (s.complete n) = j := by
      rw [s.complete_eq_zero (by omega), Nat.max_zero]
    refine ⟨off, ?_, by rwa [hmax]⟩
    rw [hmax, recs_self]
    simp only [replayFromOffset, hnone]
  · obtain ⟨magic, bs, hmagic, hversion, hsize⟩ := s.readExact_view (Nat.le_of_not_lt hn)
    obtain ⟨tail, hdrop, htail⟩ := s.view_drop n j
    have hfollow := follow_encodeAll W s.chained.two_le
      (fun e (he : e ∈ (s.entries.take (s.complete n)).drop j) =>
        s.valid e (List.mem_of_mem_take (List.mem_of_mem_drop he))) htail
    rw [← hdrop] at hfollow
    have hrecs : ((s.entries.take (s.complete n)).drop j).map
        (fun e => recordOf (e.record.toFrame W, e.op)) = s.recs j (max j (s.complete n)) := by
      rw [recs_max]
      refine List.map_congr_left fun e he => ?_
      have hvalid := s.valid e (List.mem_of_mem_take (List.mem_of_mem_drop he))
      rw [recordOf, Record.toFrame_seqno W hvalid.seqno_lt]
    refine ⟨s.offset (max j (s.complete n)), ?_, Or.inl rfl⟩
    rw [← hrecs, ← s.offset_add n j]
    simp only [replayFromOffset, hmagic]
    rcases hoff with rfl | ⟨rfl, rfl⟩
    · rw [if_neg (by rw [offset]; omega), hversion]
      simp only [Option.getD_some, hfollow, List.map_map]
      rfl
    · have hzero : s.offset 0 = s.header.length := by simp [offset]
      rw [hzero] at hfollow ⊢
      simp only [if_true, hversion, hsize, hfollow, List.map_map]
      rfl

end Stream

end ChittaField
