import ChittaField.Log.Format
import ChittaField.Memory.Apply

/-!
# The payload sidecar

A snapshot has no contents: they are in a file of their own beside it, the `.pld` sidecar.  An entry
of it is an id, a 32-bit length and the bytes of a content.  `loadPayloadSidecar` puts them back into
the payloads of the snapshot; what is in the sidecar and not in the snapshot is passed over.
-/

namespace ChittaField

variable {F : Type}

/-- The payloads of a snapshot, in the order in which the map is walked. -/
abbrev PayloadMap (F : Type) := List (MemoryId × MemoryPayload F)

def pldMagic : ℕ := 0x504C440000000001

/-- An entry of the sidecar; the length is cut to 32 bits. -/
def pldEntry (id : MemoryId) (content : Bytes) : Bytes :=
  leBytes 8 id ++ (leBytes 4 content.length ++ content)

/-- Save the contents of payloads. -/
def savePayloadSidecar (payloads : PayloadMap F) : Bytes :=
  leBytes 8 pldMagic ++ (leBytes 8 payloads.length ++
    payloads.flatMap fun e => pldEntry e.1 e.2.content)

/-- Set the content of a payload, if it is there. -/
def setContent (id : MemoryId) (content : Bytes) (payloads : PayloadMap F) : PayloadMap F :=
  payloads.map fun e => if e.1 = id then (e.1, { e.2 with content := content }) else e

/-- Fill in contents from a number of entries; false when the file ends before the last of them. -/
def fillContents : ℕ → Bytes → PayloadMap F → PayloadMap F × Bool
  | 0, _, payloads => (payloads, true)
  | n + 1, bytes, payloads =>
    match readExact 8 bytes with
    | none => (payloads, false)
    | some (idBuf, bytes) =>
      match readExact 4 bytes with
      | none => (payloads, false)
      | some (lenBuf, bytes) =>
        match readExact (leNat lenBuf) bytes with
        | none => (payloads, false)
        | some (content, bytes) => fillContents n bytes (setContent (leNat idBuf) content payloads)

/-- Load contents into the payloads of a snapshot; false when the file is missing or corrupt. -/
def loadPayloadSidecar (file : Option Bytes) (payloads : PayloadMap F) : PayloadMap F × Bool :=
  match file with
  | none => (payloads, false)
  | some bytes =>
    if bytes.length < 16 then (payloads, false)
    else if leNat (bytes.take 8) ≠ pldMagic then (payloads, false)
    else fillContents (leNat ((bytes.drop 8).take 8)) (bytes.drop 16) payloads

/-- What is left of the payloads in the body of a snapshot. -/
def stripContents (payloads : PayloadMap F) : PayloadMap F :=
  payloads.map fun e => (e.1, { e.2 with content := [] })

/-! ## What the sidecar gives back -/

/-- The ids are different and everything fits its field. -/
structure PayloadMap.Fits (payloads : PayloadMap F) : Prop where
  nodup : (payloads.map Prod.fst).Nodup
  length_lt : payloads.length < 2 ^ 64
  id_lt : ∀ e ∈ payloads, e.1 < 2 ^ 64
  content_lt : ∀ e ∈ payloads, e.2.content.length < 2 ^ 32

/-- The content that the last entry for an id has. -/
def contentIn (entries : PayloadMap F) (id : MemoryId) (content : Bytes) : Bytes :=
  entries.foldl (fun content e => if e.1 = id then e.2.content else content) content

lemma fillContents_succ {n : ℕ} {bytes bytes₁ bytes₂ bytes₃ idBuf lenBuf content : Bytes}
    (hid : readExact 8 bytes = some (idBuf, bytes₁))
    (hlen : readExact 4 bytes₁ = some (lenBuf, bytes₂))
    (hcontent : readExact (leNat lenBuf) bytes₂ = some (content, bytes₃))
    (payloads : PayloadMap F) :
    fillContents (n + 1) bytes payloads =
      fillContents n bytes₃ (setContent (leNat idBuf) content payloads) := by
  simp only [fillContents, hid, hlen, hcontent]

variable {entries : PayloadMap F}

/-- Reading the entries sets one content after the other. -/
lemma fillContents_flatMap (hid : ∀ e ∈ entries, e.1 < 2 ^ 64)
    (hlen : ∀ e ∈ entries, e.2.content.length < 2 ^ 32) (payloads : PayloadMap F) :
    fillContents entries.length (entries.flatMap fun e => pldEntry e.1 e.2.content) payloads =
      (entries.foldl (fun payloads e => setContent e.1 e.2.content payloads) payloads, true) := by
  induction entries generalizing payloads with
  | nil => rfl
  | cons e entries ih =>
    have hid' : leNat (leBytes 8 e.1) = e.1 :=
      leNat_leBytes ((hid e (List.mem_cons_self ..)).trans_eq (by norm_num))
    have hlen' : leNat (leBytes 4 e.2.content.length) = e.2.content.length :=
      leNat_leBytes ((hlen e (List.mem_cons_self ..)).trans_eq (by norm_num))
    have hcontent (rest : Bytes) : readExact (leNat (leBytes 4 e.2.content.length))
        (e.2.content ++ rest) = some (e.2.content, rest) :=
      readExact_append hlen'.symm rest
    rw [List.flatMap_cons, List.length_cons, pldEntry, List.append_assoc, List.append_assoc,
      fillContents_succ (readExact_append (length_leBytes ..) _)
        (readExact_append (length_leBytes ..) _) (hcontent _), hid', List.foldl_cons]
    exact ih (List.forall_mem_cons.mp hid).2
      (List.forall_mem_cons.mp hlen).2 _

/-- Every payload ends with the content of the last entry for it. -/
lemma foldl_setContent (entries payloads : PayloadMap F) :
    entries.foldl (fun payloads e => setContent e.1 e.2.content payloads) payloads =
      payloads.map fun e => (e.1, { e.2 with content := contentIn entries e.1 e.2.content }) := by
  induction entries generalizing payloads with
  | nil => exact (List.map_id _).symm
  | cons e entries ih =>
    rw [List.foldl_cons, ih, setContent, List.map_map]
    refine List.map_congr_left fun p _ => ?_
    by_cases hp : p.1 = e.1
    · simp only [Function.comp_apply, hp, if_true, contentIn, List.foldl_cons]
    · simp only [Function.comp_apply, if_neg hp, contentIn, List.foldl_cons, if_neg (Ne.symm hp)]

lemma contentIn_of_notMem {id : MemoryId} (h : id ∉ entries.map Prod.fst) (content : Bytes) :
    contentIn entries id content = content := by
  induction entries generalizing content with
  | nil => rfl
  | cons e entries ih =>
    rw [List.map_cons, List.mem_cons, not_or] at h
    rw [contentIn, List.foldl_cons, if_neg (Ne.symm h.1)]
    exact ih h.2 content

/-- With different ids, the entry for an id is the last one for it. -/
lemma contentIn_of_mem (hnodup : (entries.map Prod.fst).Nodup) {e : MemoryId × MemoryPayload F}
    (he : e ∈ entries) (content : Bytes) : contentIn entries e.1 content = e.2.content := by
  induction entries generalizing content with
  | nil => cases he
  | cons e' entries ih =>
    obtain ⟨hnot, hnodup'⟩ := List.nodup_cons.mp hnodup
    rw [contentIn, List.foldl_cons]
    rcases List.mem_cons.mp he with rfl | he
    · rw [if_pos rfl]
      exact contentIn_of_notMem hnot _
    · exact ih hnodup' he _

/-- Payloads whose contents are all in the sidecar get them back. -/
lemma loadPayloadSidecar_save {saved payloads : PayloadMap F} (hfits : saved.Fits)
    (h : ∀ e ∈ payloads, ∃ q, (e.1, q) ∈ saved ∧ q.content = e.2.content) :
    loadPayloadSidecar (some (savePayloadSidecar saved)) (stripContents payloads) =
      (payloads, true) := by
  have hlen : ¬(savePayloadSidecar saved).length < 16 := by
    simp only [savePayloadSidecar, List.length_append, length_leBytes]
    omega
  have hmagic : leNat ((savePayloadSidecar saved).take 8) = pldMagic := by
    rw [savePayloadSidecar, List.take_left' (length_leBytes ..)]
    exact leNat_leBytes (by norm_num [pldMagic])
  have hdrop : (savePayloadSidecar saved).drop 8 = leBytes 8 saved.length ++
      saved.flatMap fun e => pldEntry e.1 e.2.content :=
    List.drop_left' (length_leBytes ..)
  have hdrop' : (savePayloadSidecar saved).drop 16 =
      saved.flatMap fun e => pldEntry e.1 e.2.content := by
    rw [← List.drop_drop (i := 8) (j := 8), hdrop, List.drop_left' (length_leBytes ..)]
  have hcount : leNat (((savePayloadSidecar saved).drop 8).take 8) = saved.length := by
    rw [hdrop, List.take_left' (length_leBytes ..)]
    exact leNat_leBytes (hfits.length_lt.trans_eq (by norm_num))
  rw [loadPayloadSidecar, if_neg hlen, if_neg (not_not.mpr hmagic), hcount, hdrop',
    fillContents_flatMap hfits.id_lt hfits.content_lt, foldl_setContent, stripContents,
    List.map_map]
  refine congrArg (·, true) ((List.map_congr_left fun e he => ?_).trans (List.map_id _))
  obtain ⟨q, hq, hcontent⟩ := h e he
  simp only [Function.comp_apply, id_eq]
  rw [show contentIn saved e.1 [] = e.2.content from
    (contentIn_of_mem hfits.nodup hq []).trans hcontent]

end ChittaField
