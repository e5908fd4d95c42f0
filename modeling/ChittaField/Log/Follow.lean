import ChittaField.Log.Merge

/-!
# Reading on from an offset

`replayFromOffset` is the reader that peers follow each other's segments with, and that a segment
is scanned with before it is certified.  It stops at the first record that does not check, and
returns where that record begins.  It never repairs a file, and it does not compare the type byte of
a record with its operation.
-/

namespace ChittaField

variable {F : Type}

/-! ## The reader -/

/-- The size of a segment header. -/
def headerSize (version : ℕ) : ℕ :=
  if version = 2 then 48 else if version = 3 then v3HeaderSize else 16

/-- The record loop with `fuel` rounds: how many bytes it takes, and the records with their
operations. -/
def followFuel (W : Wire F) (version : ℕ) : ℕ → Bytes → ℕ × List (Frame × Op F)
  | 0, _ => (0, [])
  | fuel + 1, bs =>
    match readFrame version bs with
    | .eof => (0, [])
    | .torn => (0, [])
    | .frame f rest =>
      -- a bad checksum is taken for a record that its writer has not finished
      if f.computedCrc W version ≠ f.storedCrc then (0, [])
      else
        match W.fromSlice f.payload with
        | .error _ => (0, [])
        | .ok op =>
          let more := followFuel W version fuel rest
          (bs.length - rest.length + more.1, (f, op) :: more.2)

/-- The record loop; every record takes at least four bytes, so the fuel suffices. -/
def follow (W : Wire F) (version : ℕ) (bs : Bytes) : ℕ × List (Frame × Op F) :=
  followFuel W version (bs.length + 1) bs

/-- What the callback gets of a record. -/
def recordOf (p : Frame × Op F) : ℕ × Op F := (p.1.seqno, p.2)

/-- Read the records from an offset on.  At offset `0` the header is read first; from any other
offset the magic only tells the version, and an unknown one counts as V1. -/
def replayFromOffset (W : Wire F) (name : FileName) (file : Bytes) (byteOffset : ℕ) :
    Except FieldError (ℕ × List (ℕ × Op F)) :=
  match readExact 8 file with
  | none => .ok (byteOffset, [])
  | some (magic, _) =>
    if byteOffset = 0 then
      match segmentVersion magic with
      | none => .error (.manifest ("bad segment magic in " ++ String.ofList name))
      | some version =>
        let res := follow W version (file.drop (headerSize version))
        .ok (headerSize version + res.1, res.2.map recordOf)
    else
      let res := follow W ((segmentVersion magic).getD 1) (file.drop byteOffset)
      .ok (byteOffset + res.1, res.2.map recordOf)

/-! ## The loop, one record at a time -/

/-- Fuel beyond the length of the input changes nothing. -/
lemma followFuel_eq_of_lt (W : Wire F) (version : ℕ) {fuel : ℕ} (fuel' : ℕ) {bs : Bytes}
    (h : bs.length < fuel) (h' : bs.length < fuel') :
    followFuel W version fuel bs = followFuel W version fuel' bs := by
  induction fuel generalizing fuel' bs with
  | zero => omega
  | succ fuel ih =>
    cases fuel' with
    | zero => omega
    | succ fuel' =>
      simp only [followFuel]
      cases hread : readFrame version bs with
      | eof => rfl
      | torn => rfl
      | frame f rest =>
        have hlt := readFrame_rest_lt hread
        have hrest := @ih fuel' rest (by omega) (by omega)
        simp only [hrest]

/-- The record loop unfolded once. -/
lemma follow_eq (W : Wire F) (version : ℕ) (bs : Bytes) :
    follow W version bs =
      match readFrame version bs with
      | .eof => (0, [])
      | .torn => (0, [])
      | .frame f rest =>
        if f.computedCrc W version ≠ f.storedCrc then (0, [])
        else
          match W.fromSlice f.payload with
          | .error _ => (0, [])
          | .ok op => (bs.length - rest.length + (follow W version rest).1,
              (f, op) :: (follow W version rest).2) := by
  rw [follow, followFuel]
  cases hread : readFrame version bs with
  | eof => rfl
  | torn => rfl
  | frame f rest =>
    have hlt := readFrame_rest_lt hread
    have hrest : followFuel W version bs.length rest = follow W version rest :=
      followFuel_eq_of_lt W version _ hlt (Nat.lt_succ_self _)
    simp only [hrest]

/-! ## Files that are records throughout -/

/-- The bytes are exactly these records, whose checksums match and whose payloads decode. -/
inductive Frames (W : Wire F) (version : ℕ) : Bytes → List (Frame × Op F) → Prop
  | done : Frames W version [] []
  | frame {bs rest : Bytes} {f : Frame} {op : Op F} {fs : List (Frame × Op F)}
    (h : readFrame version bs = .frame f rest) (hcrc : f.computedCrc W version = f.storedCrc)
    (hop : W.fromSlice f.payload = .ok op) (hrest : Frames W version rest fs) :
    Frames W version bs ((f, op) :: fs)

/-- The type byte of every record is that of its operation. -/
def Typed (fs : List (Frame × Op F)) : Prop := ∀ p ∈ fs, opTypeByte p.2 = p.1.opType

/-- The reader takes no more bytes than there are, and if it takes all they are records. -/
lemma follow_le (W : Wire F) (version : ℕ) (bs : Bytes) :
    (follow W version bs).1 ≤ bs.length ∧
      ((follow W version bs).1 = bs.length → Frames W version bs (follow W version bs).2) := by
  induction hn : bs.length using Nat.strong_induction_on generalizing bs with
  | _ n ih =>
    subst hn
    have hnone : ∀ bs : Bytes, 0 ≤ bs.length ∧ (0 = bs.length → Frames W version bs []) := by
      intro bs
      refine ⟨Nat.zero_le _, fun h => ?_⟩
      rw [List.eq_nil_of_length_eq_zero h.symm]
      exact .done
    rw [follow_eq]
    cases hread : readFrame version bs with
    | eof => exact hnone bs
    | torn => exact hnone bs
    | frame f rest =>
      have hlt := readFrame_rest_lt hread
      obtain ⟨hle, hall⟩ := ih rest.length hlt rest rfl
      by_cases hcrc : f.computedCrc W version = f.storedCrc
      · cases hop : W.fromSlice f.payload with
        | error e => simpa [hcrc, hop] using hnone bs
        | ok op =>
          simp only [hcrc, ne_eq, not_true_eq_false, if_false, hop]
          exact ⟨by omega, fun h => .frame hread hcrc hop (hall (by omega))⟩
      · simpa [hcrc] using hnone bs

variable {fs : List (Frame × Op F)} {W : Wire F} {version : ℕ}

/-- The reader takes all of the records. -/
lemma Frames.follow_eq {bs : Bytes} (h : Frames W version bs fs) :
    follow W version bs = (bs.length, fs) := by
  induction h with
  | done => rfl
  | @frame bs rest f op fs h hcrc hop _ ih =>
    have hlt := readFrame_rest_lt h
    rw [ChittaField.follow_eq, h]
    simp only [hcrc, ne_eq, not_true_eq_false, if_false, hop, ih]
    exact Prod.ext (by simp only; omega) rfl

lemma decodeOp_eq_ok {f : Frame} {op : Op F} :
    decodeOp W f = .ok op ↔ W.fromSlice f.payload = .ok op ∧ opTypeByte op = f.opType := by
  unfold decodeOp
  cases W.fromSlice f.payload with
  | error e => simp
  | ok op' =>
    by_cases h : opTypeByte op' = f.opType
    · simp only [h, if_true, Except.ok.injEq]
      exact ⟨by rintro rfl; exact ⟨rfl, h⟩, fun h => h.1⟩
    · simp only [h, if_false, Except.ok.injEq]
      refine ⟨fun hf => by simp at hf, ?_⟩
      rintro ⟨rfl, h'⟩
      exact absurd h' h

/-- The sequence numbers of records. -/
def seqnos (fs : List (Frame × Op F)) : List ℕ := fs.map fun p => p.1.seqno

/-- The walk of startup replay passes records of the right types to the end of the file. -/
lemma Frames.walk_eq {bs : Bytes} (h : Frames W version bs fs) (htyped : Typed fs) (fileLen : ℕ)
    (st : Walk F) : ∃ st', walk W version 0 fileLen bs st = (st', .complete) ∧
      st'.delivered = st.delivered ++ fs.map recordOf := by
  induction h generalizing st with
  | done =>
    refine ⟨st, ?_, by simp⟩
    rw [ChittaField.walk_eq, (readFrame_eof_iff _).mpr (by simp)]
  | @frame bs rest f op fs h hcrc hop _ ih =>
    have hdecode : decodeOp W f = .ok op :=
      decodeOp_eq_ok.mpr ⟨hop, htyped _ List.mem_cons_self⟩
    obtain ⟨st', hwalk, hdel⟩ := ih (List.forall_mem_cons.mp htyped).2
      (Walk.accept { st with chainHead := nextChainHead W version st.chainHead f } f.seqno
        (fileLen - rest.length) op)
    refine ⟨st', ?_, by simpa [Walk.accept, recordOf] using hdel⟩
    rw [ChittaField.walk_eq, h]
    simpa [hcrc, hdecode] using hwalk

/-- A walk that does not fail passed records of the right types only. -/
lemma Frames.typed_of_walk {bs : Bytes} (h : Frames W version bs fs) {fileLen : ℕ} {st st' : Walk F}
    {e : WalkEnd} (hwalk : walk W version 0 fileLen bs st = (st', e)) (he : ∀ err, e ≠ .failed err) :
    Typed fs := by
  induction h generalizing st with
  | done => simp [Typed]
  | @frame bs rest f op fs h hcrc hop _ ih =>
    rw [ChittaField.walk_eq, h] at hwalk
    cases hdecode : decodeOp W f with
    | error err =>
      simp only [hcrc, hdecode, ne_eq, not_true_eq_false, if_false, Nat.not_lt_zero] at hwalk
      exact absurd (congrArg Prod.snd hwalk).symm (he err)
    | ok op' =>
      simp only [hcrc, hdecode, ne_eq, not_true_eq_false, if_false, Nat.not_lt_zero] at hwalk
      obtain ⟨hop', htype⟩ := decodeOp_eq_ok.mp hdecode
      rw [hop] at hop'
      cases hop'
      exact List.forall_mem_cons.mpr ⟨htype, ih hwalk⟩

/-- Startup replay takes a header and records of the right types as they are. -/
lemma Frames.replaySegment_eq {file rest : Bytes} {version first : ℕ} (h : Frames W version rest fs)
    (hheader : readHeader file = .header version first rest) (htyped : Typed fs) (name : FileName)
    (head : ChainHash) : ∃ tip certificate, replaySegmentInventoried W name file 0 head =
      ⟨fs.map recordOf, file, .ok (tip, certificate)⟩ := by
  obtain ⟨st', hwalk, hdel⟩ := h.walk_eq htyped file.length
    (.start head (file.length - rest.length))
  rw [replaySegmentInventoried, hheader]
  simp only [hwalk, SegmentReplay.ofWalk, hdel]
  exact ⟨_, _, rfl⟩

/-- Startup replay fails on a record of another type. -/
lemma Frames.typed_of_replaySegment {file rest : Bytes} {version first : ℕ}
    (h : Frames W version rest fs) (hheader : readHeader file = .header version first rest)
    {name : FileName} {head : ChainHash} {r : ChainHash × Option SegmentInfo}
    (hok : (replaySegmentInventoried W name file 0 head).result = .ok r) : Typed fs := by
  rw [replaySegmentInventoried, hheader] at hok
  cases hwalk : walk W version 0 file.length rest (.start head (file.length - rest.length)) with
  | mk st' e =>
    refine h.typed_of_walk hwalk fun err heq => ?_
    simp only [hwalk, heq, SegmentReplay.ofWalk] at hok
    cases hok

/-- A walk that decoded up to the end of the file passed records of the right types; if it kept
their order, their sequence numbers increase. -/
lemma frames_of_walk (W : Wire F) {version fileLen : ℕ} {bs : Bytes} {st st' : Walk F}
    (h : walk W version 0 fileLen bs st = (st', .complete)) (hle : bs.length ≤ fileLen)
    (hstart : st.decodedEnd + bs.length = fileLen) (hend : st'.decodedEnd = fileLen) :
    ∃ fs, Frames W version bs fs ∧ Typed fs ∧
      (st'.ordered = true → st.ordered = true ∧
        (st.last.toList ++ seqnos fs).Pairwise (· < ·)) ∧
      st'.last = (st.last.toList ++ seqnos fs).getLast? := by
  induction hn : bs.length using Nat.strong_induction_on generalizing bs st with
  | _ n ih =>
    subst hn
    rw [walk_eq] at h
    cases hread : readFrame version bs with
    | eof =>
      rw [hread] at h
      cases h
      have hnil : bs = [] := List.eq_nil_of_length_eq_zero (by omega)
      subst hnil
      refine ⟨[], .done, by simp [Typed], fun ho => ⟨ho, ?_⟩, ?_⟩
      · cases st'.last <;> simp [seqnos]
      · cases st'.last <;> simp [seqnos]
    | torn =>
      rw [hread] at h
      cases h
    | frame f rest =>
      have hlt := readFrame_rest_lt hread
      rw [hread] at h
      by_cases hcrc : f.computedCrc W version = f.storedCrc
      · cases hdecode : decodeOp W f with
        | error e => simp [hcrc, hdecode] at h
        | ok op =>
          simp only [hcrc, ne_eq, not_true_eq_false, if_false, Nat.not_lt_zero, hdecode] at h
          obtain ⟨hop, htype⟩ := decodeOp_eq_ok.mp hdecode
          obtain ⟨fs, hfs, htyped, hordered, hlast⟩ := ih rest.length hlt h (by omega)
            (by simp only [Walk.accept]; omega) rfl
          refine ⟨(f, op) :: fs, .frame hread hcrc hop hfs, ?_, fun ho => ?_, ?_⟩
          · exact List.forall_mem_cons.mpr ⟨htype, htyped⟩
          · obtain ⟨hacc, hsorted⟩ := hordered ho
            simp only [Walk.accept, Bool.and_eq_true] at hacc
            refine ⟨hacc.1, ?_⟩
            cases hst : st.last with
            | none => simpa [Walk.accept, seqnos] using hsorted
            | some n =>
              have hn : n < f.seqno := by simpa [hst] using hacc.2
              have hsorted' : (f.seqno :: seqnos fs).Pairwise (· < ·) := by
                simpa [Walk.accept] using hsorted
              have hcons : (some n).toList ++ seqnos ((f, op) :: fs) =
                  n :: f.seqno :: seqnos fs := rfl
              rw [hcons, List.pairwise_cons]
              exact ⟨List.forall_mem_cons.mpr
                ⟨hn, fun m hm => hn.trans ((List.pairwise_cons.mp hsorted').1 m hm)⟩, hsorted'⟩
          · rw [hlast]
            cases st.last <;> simp [Walk.accept, seqnos]
      · by_cases hrest : rest.isEmpty = true
        · simp [hcrc, hrest] at h
        · simp [hcrc, hrest] at h

/-! ## Records that are cut off -/

/-- The entries whose records are complete in the first `k` bytes, and the bytes behind them. -/
def cutEntries (W : Wire F) : ℕ → List (Entry F) → List (Entry F) × Bytes
  | _, [] => ([], [])
  | k, e :: es =>
    if (e.record.encode W).length ≤ k then
      let rest := cutEntries W (k - (e.record.encode W).length) es
      (e :: rest.1, rest.2)
    else ([], (e.record.encode W).take k)

lemma take_encodeAll (W : Wire F) (k : ℕ) (es : List (Entry F)) :
    (encodeAll W (records es)).take k =
      encodeAll W (records (cutEntries W k es).1) ++ (cutEntries W k es).2 := by
  induction es generalizing k with
  | nil => simp [cutEntries]
  | cons e es ih =>
    rw [records_cons, encodeAll_cons, cutEntries]
    split
    · rename_i hle
      rw [List.take_append, List.take_of_length_le hle, ih]
      simp
    · rename_i hlt
      rw [List.take_append_of_le_length (Nat.le_of_not_le hlt)]
      simp

lemma cutEntries_isInitial (W : Wire F) (k : ℕ) (es : List (Entry F)) :
    (cutEntries W k es).1 <+: es := by
  induction es generalizing k with
  | nil => simp [cutEntries]
  | cons e es ih =>
    rw [cutEntries]
    split
    · exact List.cons_prefix_cons.mpr ⟨rfl, ih _⟩
    · exact List.nil_prefix

/-- What is left of a cut record is too short for a length field, or torn. -/
lemma cutEntries_tail (W : Wire F) (hv : 2 ≤ version) (k : ℕ) {es : List (Entry F)}
    (hes : ∀ e ∈ es, e.Valid W) :
    (cutEntries W k es).2.length < 4 ∨ readFrame version (cutEntries W k es).2 = .torn := by
  induction es generalizing k with
  | nil => exact Or.inl (by simp [cutEntries])
  | cons e es ih =>
    rw [cutEntries]
    split
    · exact ih _ (List.forall_mem_cons.mp hes).2
    · rename_i hlt
      by_cases h4 : k < 4
      · exact Or.inl (by rw [List.length_take]; omega)
      · exact Or.inr (readFrame_take_encode W hv (hes e List.mem_cons_self).payload_lt
          (Nat.le_of_not_lt h4) (Nat.lt_of_not_le hlt))

/-- Reading on takes the complete records and stops in front of a cut one. -/
lemma follow_encodeAll (W : Wire F) (hv : 2 ≤ version) {es : List (Entry F)}
    (hes : ∀ e ∈ es, e.Valid W) {tail : Bytes}
    (htail : tail.length < 4 ∨ readFrame version tail = .torn) :
    follow W version (encodeAll W (records es) ++ tail) =
      ((encodeAll W (records es)).length, es.map fun e => (e.record.toFrame W, e.op)) := by
  induction es with
  | nil =>
    rw [records_nil, follow_eq]
    rcases htail with htail | htail
    · rw [show encodeAll W [] ++ tail = tail from rfl, (readFrame_eof_iff _).mpr htail]
      rfl
    · rw [show encodeAll W [] ++ tail = tail from rfl, htail]
      rfl
  | cons e es ih =>
    have he := hes e List.mem_cons_self
    rw [records_cons, encodeAll_cons, List.append_assoc, follow_eq,
      readFrame_encode W hv he.payload_lt]
    have hpayload : (e.record.toFrame W).payload = e.record.payload := rfl
    simp only [Record.toFrame_crc W hv, ne_eq, not_true_eq_false, if_false, hpayload, he.decodes,
      ih (List.forall_mem_cons.mp hes).2, List.map_cons]
    refine Prod.ext ?_ rfl
    simp only [List.length_append]
    omega

@[simp] lemma cutEntries_zero (W : Wire F) (es : List (Entry F)) :
    (cutEntries W 0 es).1 = [] := by
  cases es with
  | nil => rfl
  | cons e es =>
    rw [cutEntries, if_neg (by simp [recordOverhead])]

/-- Behind the first `j` records the cut falls into the rest. -/
lemma cutEntries_drop (W : Wire F) (es : List (Entry F)) (j k : ℕ) :
    (cutEntries W (k - (encodeAll W (records (es.take j))).length) (es.drop j)).1 =
      (cutEntries W k es).1.drop j := by
  induction j generalizing es k with
  | zero => simp
  | succ j ih =>
    cases es with
    | nil => simp [cutEntries]
    | cons e es =>
      rw [List.take_succ_cons, List.drop_succ_cons, records_cons, encodeAll_cons,
        List.length_append, Nat.sub_add_eq, ih, cutEntries]
      split
      · rfl
      · rename_i hlt
        rw [Nat.sub_eq_zero_of_le (Nat.le_of_not_le hlt)]
        simp

/-- A longer beginning holds more complete records. -/
lemma cutEntries_mono (W : Wire F) {k k' : ℕ} (h : k ≤ k') (es : List (Entry F)) :
    (cutEntries W k es).1.length ≤ (cutEntries W k' es).1.length := by
  induction es generalizing k k' with
  | nil => simp [cutEntries]
  | cons e es ih =>
    rw [cutEntries, cutEntries]
    by_cases hk : (e.record.encode W).length ≤ k
    · rw [if_pos hk, if_pos (hk.trans h)]
      simpa using ih (Nat.sub_le_sub_right h _)
    · rw [if_neg hk]
      exact Nat.zero_le _

/-- A beginning that ends behind a record holds the records up to it. -/
lemma cutEntries_encodeAll (W : Wire F) (j : ℕ) (es : List (Entry F)) :
    (cutEntries W (encodeAll W (records (es.take j))).length es).1 = es.take j := by
  induction j generalizing es with
  | zero => simp
  | succ j ih =>
    cases es with
    | nil => simp [cutEntries]
    | cons e es =>
      rw [List.take_succ_cons, records_cons, encodeAll_cons, List.length_append, cutEntries,
        if_pos (Nat.le_add_right _ _), Nat.add_sub_cancel_left]
      exact congrArg (e :: ·) (ih es)

end ChittaField
