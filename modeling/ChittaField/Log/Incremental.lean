import ChittaField.Log.Follow

/-!
# Reading a segment that grows

A peer appends to its segment while others read on from where they stopped.  What they are shown each
time is a beginning of the segment, cut anywhere.

`reads_eq_replay` says that the reads deliver together what one read of the last beginning delivers,
and that they stop behind the header or a record.
-/

namespace ChittaField

variable {F : Type}

/-! ## The size of a record -/

/-- The bytes that a record takes. -/
def entrySize (version : ℕ) (f : Frame) : ℕ :=
  4 + 8 + 1 + (if 2 ≤ version then 32 else 0) + f.payload.length + 4

lemma readExact_eq_append {n : ℕ} {bs a rest : Bytes} (h : readExact n bs = some (a, rest)) :
    bs = a ++ rest ∧ a.length = n := by
  unfold readExact at h
  split at h
  · rename_i hle
    cases h
    exact ⟨(List.take_append_drop n bs).symm, List.length_take_of_le hle⟩
  · exact absurd h nofun

lemma readPrevHash_length {version : ℕ} {bs rest : Bytes} {k : ChainHash}
    (h : readPrevHash version bs = some (k, rest)) :
    ∃ a : Bytes, bs = a ++ rest ∧ a.length = if 2 ≤ version then 32 else 0 := by
  unfold readPrevHash readHash at h
  split at h
  · rename_i hv
    split at h
    · rename_i hle
      cases h
      exact ⟨bs.take 32, (List.take_append_drop 32 bs).symm, by
        rw [if_pos hv, List.length_take_of_le hle]⟩
    · exact absurd h nofun
  · rename_i hv
    cases h
    exact ⟨[], rfl, by rw [if_neg hv]; rfl⟩

/-- The bytes behind a record are those behind its size. -/
lemma readFrame_size {version : ℕ} {bs rest : Bytes} {f : Frame}
    (h : readFrame version bs = .frame f rest) :
    bs.length = entrySize version f + rest.length ∧ bs.drop (entrySize version f) = rest := by
  have hsplit : ∃ a : Bytes, bs = a ++ rest ∧ a.length = entrySize version f := by
    unfold readFrame at h
    split at h
    · exact absurd h nofun
    · rename_i lenBuf bs₁ hlen
      split at h
      · exact absurd h nofun
      · rename_i f' rest' hfields
        cases h
        simp only [readFields, Option.bind_eq_bind, Option.bind_eq_some_iff, Prod.exists,
          Option.pure_def, Option.some.injEq, Prod.mk.injEq] at hfields
        obtain ⟨a₁, b₁, e₁, a₂, b₂, e₂, k, b₃, e₃, a₄, b₄, e₄, a₅, b₅, e₅, hf, rfl⟩ := hfields
        obtain ⟨rfl, h₀⟩ := readExact_eq_append hlen
        obtain ⟨rfl, h₁⟩ := readExact_eq_append e₁
        obtain ⟨rfl, h₂⟩ := readExact_eq_append e₂
        obtain ⟨a₃, rfl, h₃⟩ := readPrevHash_length e₃
        obtain ⟨rfl, h₄⟩ := readExact_eq_append e₄
        obtain ⟨rfl, h₅⟩ := readExact_eq_append e₅
        refine ⟨lenBuf ++ (a₁ ++ (a₂ ++ (a₃ ++ (a₄ ++ a₅)))), by simp only [List.append_assoc], ?_⟩
        subst hf
        simp only [List.length_append, h₀, h₁, h₂, h₃, h₅, entrySize]
        omega
  obtain ⟨a, rfl, ha⟩ := hsplit
  exact ⟨by rw [List.length_append, ha], List.drop_left' ha⟩

/-- The reader takes the sizes of the records that it delivers. -/
lemma follow_sizes (W : Wire F) (version : ℕ) (bs : Bytes) :
    (follow W version bs).1 = ((follow W version bs).2.map fun p => entrySize version p.1).sum := by
  induction hn : bs.length using Nat.strong_induction_on generalizing bs with
  | _ n ih =>
    subst hn
    rw [follow_eq]
    cases hread : readFrame version bs with
    | eof => rfl
    | torn => rfl
    | frame f rest =>
      by_cases hcrc : f.computedCrc W version = f.storedCrc
      · cases hop : W.fromSlice f.payload with
        | error e => simp [hcrc, hop]
        | ok op =>
          have hsize := (readFrame_size hread).1
          simp only [hcrc, ne_eq, not_true_eq_false, if_false, hop, List.map_cons, List.sum_cons]
          rw [← ih rest.length (readFrame_rest_lt hread) rest rfl]
          omega
      · simp [hcrc]

/-! ## More bytes behind the records -/

/-- Reading some bytes and then more is reading them together. -/
lemma follow_append (W : Wire F) (version : ℕ) (bs more : Bytes) :
    follow W version (bs ++ more) =
      ((follow W version bs).1 +
          (follow W version (bs.drop (follow W version bs).1 ++ more)).1,
        (follow W version bs).2 ++
          (follow W version (bs.drop (follow W version bs).1 ++ more)).2) := by
  induction hn : bs.length using Nat.strong_induction_on generalizing bs with
  | _ n ih =>
    subst hn
    by_cases hstop : follow W version bs = (0, [])
    · rw [hstop, Nat.zero_add]
      rfl
    cases hread : readFrame version bs with
    | eof => exact absurd (by rw [follow_eq, hread]) hstop
    | torn => exact absurd (by rw [follow_eq, hread]) hstop
    | frame f rest =>
      by_cases hcrc : f.computedCrc W version = f.storedCrc
      · cases hop : W.fromSlice f.payload with
        | error e => exact absurd (by simp [follow_eq W version bs, hread, hcrc, hop]) hstop
        | ok op =>
          have hlt := readFrame_rest_lt hread
          have hbs : follow W version bs = (bs.length - rest.length + (follow W version rest).1,
              (f, op) :: (follow W version rest).2) := by
            rw [follow_eq W version bs, hread]
            simp only [hcrc, ne_eq, not_true_eq_false, if_false, hop]
          have hall : follow W version (bs ++ more) =
              (bs.length - rest.length + (follow W version (rest ++ more)).1,
                (f, op) :: (follow W version (rest ++ more)).2) := by
            rw [follow_eq W version (bs ++ more), readFrame_append hread more]
            simp only [hcrc, ne_eq, not_true_eq_false, if_false, hop]
            rw [List.length_append, List.length_append, Nat.add_sub_add_right]
          obtain ⟨hsize, hrest⟩ := readFrame_size hread
          have hdrop : bs.drop (bs.length - rest.length) = rest := by
            rw [hsize, Nat.add_sub_cancel, hrest]
          rw [hall, hbs, ih rest.length hlt rest rfl, ← List.drop_drop, hdrop, Nat.add_assoc]
          rfl
      · exact absurd (by simp [follow_eq W version bs, hread, hcrc]) hstop

/-! ## A segment that is read as it grows -/

/-- A segment of a format version: a header of that version, and records behind it. -/
structure WellFormed (W : Wire F) (version : ℕ) (file : Bytes) (fs : List (Frame × Op F)) : Prop where
  magic : segmentVersion (file.take 8) = some version
  header : headerSize version ≤ file.length
  frames : Frames W version (file.drop (headerSize version)) fs

/-- Read beginnings of a segment one after the other, each from where the last read stopped; where the
reads stop, and all that they deliver. -/
def readOnAll (W : Wire F) (name : FileName) (file : Bytes) :
    List ℕ → ℕ → Except FieldError (List ℕ × List (ℕ × Op F))
  | [], _ => .ok ([], [])
  | n :: cuts, byteOffset =>
    match replayFromOffset W name (file.take n) byteOffset with
    | .error e => .error e
    | .ok (newOffset, rs) =>
      match readOnAll W name file cuts newOffset with
      | .error e => .error e
      | .ok (offsets, more) => .ok (newOffset :: offsets, rs ++ more)

/-- What a read of the first `n` bytes comes to. -/
def shown (W : Wire F) (version : ℕ) (file : Bytes) (n : ℕ) : ℕ × List (ℕ × Op F) :=
  if (file.take n).length < 8 then (0, [])
  else
    let res := follow W version ((file.take n).drop (headerSize version))
    (headerSize version + res.1, res.2.map recordOf)

variable {W : Wire F} {version : ℕ} {file : Bytes} {fs : List (Frame × Op F)}

lemma headerSize_pos (version : ℕ) : 0 < headerSize version := by
  unfold headerSize v3HeaderSize
  split
  · decide
  · split <;> decide

namespace WellFormed

/-- The magic shows in every beginning that is long enough. -/
lemma readExact_take (h : WellFormed W version file fs) {n : ℕ} (hn : ¬(file.take n).length < 8) :
    ∃ magic bs, readExact 8 (file.take n) = some (magic, bs) ∧
      segmentVersion magic = some version := by
  have hmin : 8 ≤ n := by
    rw [List.length_take] at hn
    omega
  refine ⟨(file.take n).take 8, (file.take n).drop 8, if_pos (Nat.le_of_not_lt hn), ?_⟩
  rw [List.take_take, Nat.min_eq_left hmin]
  exact h.magic

/-- One read from the start. -/
lemma replay_start (h : WellFormed W version file fs) (name : FileName) (n : ℕ) :
    replayFromOffset W name (file.take n) 0 = .ok (shown W version file n) := by
  unfold shown
  split
  · rename_i hshort
    have hnone : readExact 8 (file.take n) = none := if_neg (Nat.not_le_of_lt hshort)
    simp only [replayFromOffset, hnone]
  · rename_i hn
    obtain ⟨magic, bs, hmagic, hversion⟩ := h.readExact_take hn
    simp only [replayFromOffset, hmagic, if_true, hversion]

/-- One read from where a read of a shorter beginning stopped. -/
lemma replay_on (h : WellFormed W version file fs) (name : FileName) {n m : ℕ} (hnm : n ≤ m) :
    ∃ rs, replayFromOffset W name (file.take m) (shown W version file n).1 =
        .ok ((shown W version file m).1, rs) ∧
      (shown W version file m).2 = (shown W version file n).2 ++ rs := by
  by_cases hn : (file.take n).length < 8
  · have hzero : shown W version file n = (0, []) := if_pos hn
    rw [hzero]
    exact ⟨_, h.replay_start name m, (List.nil_append _).symm⟩
  · have hsplit : file.take m = file.take n ++ (file.drop n).take (m - n) := by
      conv_lhs => rw [← Nat.add_sub_cancel' hnm, List.take_add]
    have hm : ¬(file.take m).length < 8 := by
      rw [hsplit, List.length_append]
      omega
    obtain ⟨magic, bs, hmagic, hversion⟩ := h.readExact_take hm
    -- what the shorter beginning holds behind the header, and what has come since
    generalize hX : (file.take n).drop (headerSize version) = X
    obtain ⟨Y, hY⟩ : ∃ Y, (file.take m).drop (headerSize version) = X ++ Y := by
      rw [hsplit, List.drop_append, hX]
      exact ⟨_, rfl⟩
    have hn' : shown W version file n = (headerSize version + (follow W version X).1,
        (follow W version X).2.map recordOf) := by
      rw [shown, if_neg hn, hX]
    have hm' : shown W version file m = (headerSize version + (follow W version (X ++ Y)).1,
        (follow W version (X ++ Y)).2.map recordOf) := by
      rw [shown, if_neg hm, hY]
    have hle := (follow_le W version X).1
    have hdrop : (file.take m).drop (headerSize version + (follow W version X).1) =
        X.drop (follow W version X).1 ++ Y := by
      rw [← List.drop_drop, hY, List.drop_append_of_le_length hle]
    have hpos : headerSize version + (follow W version X).1 ≠ 0 := by
      have := headerSize_pos version
      omega
    rw [hn', hm', follow_append W version X Y]
    refine ⟨(follow W version (X.drop (follow W version X).1 ++ Y)).2.map recordOf, ?_, ?_⟩
    · simp only [replayFromOffset, hmagic, hpos, if_false, hversion, Option.getD_some, hdrop,
        Nat.add_assoc]
    · exact List.map_append

/-- A read stops at the start, or behind the header and some of the records. -/
lemma shown_boundary (h : WellFormed W version file fs) (n : ℕ) (hne : (shown W version file n).1 ≠ 0) :
    ∃ j ≤ fs.length, (shown W version file n).1 =
      headerSize version + ((fs.take j).map fun p => entrySize version p.1).sum := by
  unfold shown at hne ⊢
  split at hne
  · exact absurd rfl hne
  · rename_i hn
    rw [if_neg hn]
    obtain ⟨Y, hY⟩ : ∃ Y, file.drop (headerSize version) =
        (file.take n).drop (headerSize version) ++ Y :=
      ⟨_, by rw [← List.drop_append, List.take_append_drop]⟩
    have hall := follow_append W version ((file.take n).drop (headerSize version)) Y
    rw [← hY, h.frames.follow_eq] at hall
    have hpre : (follow W version ((file.take n).drop (headerSize version))).2 <+: fs :=
      ⟨_, (congrArg Prod.snd hall).symm⟩
    refine ⟨_, hpre.length_le, ?_⟩
    rw [← List.prefix_iff_eq_take.mp hpre]
    exact congrArg _ (follow_sizes W version _)

/-- The reads of growing beginnings, behind one of `n` bytes. -/
lemma readOnAll_eq (h : WellFormed W version file fs) (name : FileName) {cuts : List ℕ} {n : ℕ}
    (hcuts : (n :: cuts).Pairwise (· ≤ ·)) :
    ∃ rs, readOnAll W name file cuts (shown W version file n).1 =
        .ok (cuts.map fun m => (shown W version file m).1, rs) ∧
      (shown W version file n).2 ++ rs =
        (shown W version file ((n :: cuts).getLast (List.cons_ne_nil _ _))).2 := by
  induction cuts generalizing n with
  | nil => exact ⟨[], rfl, List.append_nil _⟩
  | cons m cuts ih =>
    obtain ⟨hle, hcuts⟩ := List.pairwise_cons.mp hcuts
    obtain ⟨rs, hread, hrs⟩ := h.replay_on name (hle m List.mem_cons_self)
    obtain ⟨more, hreads, hmore⟩ := ih hcuts
    refine ⟨rs ++ more, ?_, ?_⟩
    · simp only [readOnAll, hread, hreads, List.map_cons]
    · rw [List.getLast_cons (List.cons_ne_nil m cuts), ← hmore, hrs, List.append_assoc]

/-- The reads of growing beginnings of a segment, each from where the last one stopped, deliver
together what one read of the last beginning delivers; where they stop is the start of the segment,
the end of its header or the end of a record. -/
theorem reads_eq_replay (h : WellFormed W version file fs) (name : FileName) {cuts : List ℕ}
    (hcuts : cuts.Pairwise (· ≤ ·)) (hne : cuts ≠ []) :
    ∃ offsets rs, readOnAll W name file cuts 0 = .ok (offsets, rs) ∧
      (∃ off, replayFromOffset W name (file.take (cuts.getLast hne)) 0 = .ok (off, rs)) ∧
      ∀ off ∈ offsets, off ≠ 0 → ∃ j ≤ fs.length,
        off = headerSize version + ((fs.take j).map fun p => entrySize version p.1).sum := by
  have hstart : shown W version file 0 = (0, []) := by
    rw [shown, List.take_zero, if_pos (by decide)]
  have hzero : (0 :: cuts).Pairwise (· ≤ ·) :=
    List.pairwise_cons.mpr ⟨fun _ _ => Nat.zero_le _, hcuts⟩
  obtain ⟨rs, hreads, hrs⟩ := h.readOnAll_eq name hzero
  rw [hstart, List.nil_append, List.getLast_cons hne] at hrs
  rw [hstart] at hreads
  refine ⟨_, rs, hreads, ⟨_, (h.replay_start name _).trans (by rw [hrs])⟩, fun off hoff => ?_⟩
  obtain ⟨m, -, rfl⟩ := List.mem_map.mp hoff
  exact h.shown_boundary m

/-- A V1 segment with one deletion, as the reader sees it. -/
def firstFrame : Frame :=
  let e := Reference.deletion ℚ 7 5 3 zeroHash
  ⟨beBytes 8 7, [e.record.opType], zeroHash, e.record.payload,
    beBytes 4 (Reference.crc32 (beBytes 8 7 ++ [e.record.opType] ++ e.record.payload)).toNat⟩

/-- A V1 segment with one deletion. -/
def firstSegment : Bytes :=
  segmentMagic ++ beBytes 8 7 ++ beBytes 4 firstFrame.payload.length ++
    firstFrame.body 1 ++ firstFrame.crcBuf

lemma firstSegment_wellFormed : WellFormed (Reference.wire ℚ) 1 firstSegment
    [(firstFrame, (Reference.deletion ℚ 7 5 3 zeroHash).op)] where
  magic := by decide +kernel
  header := by decide +kernel
  frames :=
    have hread : readFrame 1 (firstSegment.drop (headerSize 1)) = .frame firstFrame [] := rfl
    .frame hread (by decide +kernel) rfl .done

/-- It is read while its header is written, in the middle of the record, and at its end. -/
theorem reads_eq_replay_sample :
    ∃ offsets rs, readOnAll (Reference.wire ℚ) (segmentPath 1 7) firstSegment [3, 12, 40, 99] 0 =
        .ok (offsets, rs) ∧
      (∃ off, replayFromOffset (Reference.wire ℚ) (segmentPath 1 7) (firstSegment.take 99) 0 =
        .ok (off, rs)) ∧
      ∀ off ∈ offsets, off ≠ 0 → ∃ j ≤ 1, off = headerSize 1 +
        (([(firstFrame, (Reference.deletion ℚ 7 5 3 zeroHash).op)].take j).map fun p =>
          entrySize 1 p.1).sum :=
  firstSegment_wellFormed.reads_eq_replay (segmentPath 1 7) (by decide) (by decide)

end WellFormed

end ChittaField
