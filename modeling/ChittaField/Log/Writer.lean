import ChittaField.Log.Merge

/-!
# The log of one instance

An `OpLog` appends to the last segment of its instance, in a new segment once the current one is
full.  It keeps a copy of the accepted bytes of the current segment, from which `recoverSegment`
installs a fresh file when the old one vanished or a write to it failed.

The operating system enters through `Io`: a write that fails after part of the bytes, a file that
vanishes between the check for it and the write, a failing sync.  Opening a segment continues it in
append mode; segments that the log created itself are written at the handle's own position.
-/

namespace ChittaField

variable {F : Type}

/-- Segments of this size are closed: 256 MiB. -/
def maxSegmentSize : ℕ := 256 * 1024 * 1024

/-- The file behind the open handle: the one its path names, or one that has been taken away from
its path, with its bytes and the number of links it has left. -/
inductive HandleFile where
  | linked
  | detached (bytes : Bytes) (nlink : ℕ)

/-- The open handle of the current segment; a handle without a position is in append mode. -/
structure Handle where
  file : HandleFile
  pos : Option ℕ

/-- The log of one instance. -/
structure OpLog (F : Type) where
  suppresses : Op F → Bool
  instanceId : InstanceId
  currentSegment : Handle
  currentSegmentPath : FileName
  recoveries : ℕ
  replayInventory : List SegmentInfo
  acceptedPrefix : Bytes
  currentSegmentSize : ℕ
  appendedBytes : ℕ
  appendedRecords : ℕ
  nextSeqno : ℕ
  opsSinceSync : ℕ
  syncCount : ℕ
  chainHead : ChainHash
  vectorSpaceId : ℕ

/-- What the operating system does during one call: `write` is the number of bytes a failing write
leaves in the file, `vanish` says that the file loses its name, keeping that many links, behind the
check for it, `syncFails` that the data cannot be synced. -/
structure Io where
  write : Option ℕ
  vanish : Option ℕ
  syncFails : Bool

/-- Nothing goes wrong. -/
def Io.clean : Io := ⟨none, none, false⟩

/-! ## Opening -/

/-- A segment whose records are chained. -/
def isChainedSegment (file : Bytes) : Bool :=
  match readExact 8 file with
  | none => false
  | some (magic, _) => magic = segmentMagicV2 ∨ magic = segmentMagicV3

/-- Create a segment, refusing to overwrite one. -/
def createSegmentV3 (dir : SegDir) (name : FileName) (firstSeqno : ℕ) (chainHead : ChainHash)
    (vectorSpaceId : ℕ) : Except FieldError SegDir :=
  if (dir.read name).isSome then .error (.io "File exists")
  else .ok (dir.write name (headerV3 firstSeqno chainHead vectorSpaceId))

/-- A log that has just been opened on a segment with these bytes. -/
def OpLog.fresh (vectorSpaceId : ℕ) (inst : InstanceId) (path : FileName) (pos : Option ℕ)
    (file : Bytes) (nextSeqno : ℕ) (chainHead : ChainHash) : OpLog F where
  suppresses := fun _ => false
  instanceId := inst
  currentSegment := ⟨.linked, pos⟩
  currentSegmentPath := path
  recoveries := 0
  replayInventory := []
  acceptedPrefix := file
  currentSegmentSize := file.length
  appendedBytes := 0
  appendedRecords := 0
  nextSeqno := nextSeqno
  opsSinceSync := 0
  syncCount := 0
  chainHead := chainHead
  vectorSpaceId := vectorSpaceId

/-- The segment to continue: the instance's last one, if it is chained, of the log's lineage and
not full. -/
def segmentToContinue (vectorSpaceId : ℕ) (inst : InstanceId) (dir : SegDir) :
    Option (FileName × Bytes) :=
  (collectInstanceSegments dir inst).getLast?.bind fun name =>
    (dir.read name).bind fun file =>
      if file.length < maxSegmentSize ∧ isChainedSegment file ∧
          (segmentVectorSpaceId file).all (· = vectorSpaceId) then
        some (name, file)
      else none

/-- Open the log with a known chain tip. -/
def OpLog.openWithChain (vectorSpaceId : ℕ) (dir : SegDir) (inst : InstanceId) (nextSeqno : ℕ)
    (chainHead : ChainHash) : Except FieldError (OpLog F × SegDir) :=
  match segmentToContinue vectorSpaceId inst dir with
  | some (name, file) => .ok (.fresh vectorSpaceId inst name none file nextSeqno chainHead, dir)
  | none =>
    let path := segmentPath inst nextSeqno
    (createSegmentV3 dir path nextSeqno chainHead vectorSpaceId).map fun dir =>
      let header := headerV3 nextSeqno chainHead vectorSpaceId
      (.fresh vectorSpaceId inst path (some header.length) header nextSeqno chainHead, dir)

/-- Open the log of an instance. -/
def OpLog.open (vectorSpaceId : ℕ) (dir : SegDir) (inst : InstanceId) (nextSeqno : ℕ) :
    Except FieldError (OpLog F × SegDir) :=
  OpLog.openWithChain vectorSpaceId dir inst nextSeqno zeroHash

/-! ## Writing -/

/-- Write bytes at a position; a gap before it reads as zeros. -/
def writeAt (bytes : Bytes) (pos : ℕ) (new : Bytes) : Bytes :=
  (bytes ++ List.replicate (pos - bytes.length) 0).take pos ++ new ++
    bytes.drop (pos + new.length)

/-- Write bytes through a handle. -/
def Handle.put (pos : Option ℕ) (bytes new : Bytes) : Bytes :=
  match pos with
  | none => bytes ++ new
  | some pos => writeAt bytes pos new

namespace OpLog

/-- Write bytes to the open segment. -/
def writeAll (log : OpLog F) (dir : SegDir) (new : Bytes) : OpLog F × SegDir :=
  let pos := log.currentSegment.pos
  match log.currentSegment.file with
  | .linked =>
    ({ log with currentSegment := ⟨.linked, pos.map (· + new.length)⟩ },
      dir.write log.currentSegmentPath
        (Handle.put pos ((dir.read log.currentSegmentPath).getD []) new))
  | .detached bytes nlink =>
    ({ log with
        currentSegment := ⟨.detached (Handle.put pos bytes new) nlink, pos.map (· + new.length)⟩ },
      dir)

/-- The file of the open segment is taken away from its path. -/
def vanish (log : OpLog F) (dir : SegDir) (nlink : ℕ) : OpLog F × SegDir :=
  match log.currentSegment.file, dir.read log.currentSegmentPath with
  | .linked, some bytes =>
    ({ log with currentSegment := { log.currentSegment with file := .detached bytes nlink } },
      dir.remove log.currentSegmentPath)
  | _, _ => (log, dir)

/-- The vanishing during a call, if there is one. -/
def vanishDuring (log : OpLog F) (dir : SegDir) (io : Io) : OpLog F × SegDir :=
  match io.vanish with
  | none => (log, dir)
  | some nlink => log.vanish dir nlink

/-- The open segment has no links left. -/
def segmentVanished (log : OpLog F) : Bool :=
  match log.currentSegment.file with
  | .linked => false
  | .detached _ nlink => nlink = 0

/-- Install a fresh file from the accepted bytes. -/
def recoverSegment (log : OpLog F) (dir : SegDir) : OpLog F × SegDir :=
  ({ log with
      currentSegment := ⟨.linked, some log.acceptedPrefix.length⟩
      recoveries := log.recoveries + 1 },
    dir.write log.currentSegmentPath log.acceptedPrefix)

/-- Sync the open segment. -/
def sync (log : OpLog F) (dir : SegDir) (io : Io) : OpLog F × SegDir :=
  let (log, dir) :=
    if log.segmentVanished ∨ dir.read log.currentSegmentPath = none then log.recoverSegment dir
    else (log, dir)
  let (log, dir) := log.vanishDuring dir io
  let (log, dir) :=
    if io.syncFails then
      { log with syncCount := log.syncCount + 1 }.recoverSegment dir
    else ({ log with syncCount := log.syncCount + 1 }, dir)
  ({ log with opsSinceSync := 0 }, dir)

/-- Close a full segment and continue in a new one. -/
def rotateIfNeeded (log : OpLog F) (dir : SegDir) (io : Io) :
    (OpLog F × SegDir) × Except FieldError Unit :=
  if log.currentSegmentSize < maxSegmentSize then ((log, dir), .ok ())
  else
    let (log, dir) := log.sync dir { io with vanish := none }
    let path := segmentPath log.instanceId log.nextSeqno
    match createSegmentV3 dir path log.nextSeqno log.chainHead log.vectorSpaceId with
    | .error e => ((log, dir), .error e)
    | .ok dir =>
      let header := headerV3 log.nextSeqno log.chainHead log.vectorSpaceId
      (({ log with
          currentSegment := ⟨.linked, some header.length⟩
          acceptedPrefix := header
          currentSegmentPath := path
          currentSegmentSize := v3HeaderSize }, dir), .ok ())

/-- The record of an operation. -/
def record (log : OpLog F) (op : Op F) (payload : Bytes) : Record :=
  ⟨log.nextSeqno, opTypeByte op, log.chainHead, payload⟩

/-- Write a record; a write that fails is made good on a recovered file. -/
def writeRecord (log : OpLog F) (dir : SegDir) (io : Io) (bytes : Bytes) : OpLog F × SegDir :=
  match io.write with
  | none => log.writeAll dir bytes
  | some k =>
    let (log, dir) := log.writeAll dir (bytes.take k)
    let (log, dir) := log.recoverSegment dir
    log.writeAll dir bytes

/-- The state of the log after a record of it was written. -/
def acknowledge (W : Wire F) (log : OpLog F) (r : Record) : OpLog F :=
  { log with
    acceptedPrefix := log.acceptedPrefix ++ r.encode W
    chainHead := computeRecordHash W r.seqno r.opType r.prevHash r.payload
    opsSinceSync := log.opsSinceSync + 1
    currentSegmentSize := log.currentSegmentSize + (r.encode W).length
    appendedBytes := log.appendedBytes + (r.encode W).length
    appendedRecords := log.appendedRecords + 1
    nextSeqno := (log.nextSeqno + 1) % 2 ^ 64 }

/-- Encode an operation and write its record. -/
def appendRecord (W : Wire F) (log : OpLog F) (dir : SegDir) (io : Io) (op : Op F) :
    (OpLog F × SegDir) × Except FieldError ℕ :=
  match W.toVec op with
  | .error e => ((log, dir), .error (.serialization e))
  | .ok payload =>
    let r := log.record op payload
    let (log, dir) := log.vanishDuring dir io
    let (log, dir) := log.writeRecord dir io (r.encode W)
    ((log.acknowledge W r, dir), .ok r.seqno)

/-- Append an operation, returning its sequence number. -/
def append (W : Wire F) (log : OpLog F) (dir : SegDir) (io : Io) (op : Op F) :
    (OpLog F × SegDir) × Except FieldError ℕ :=
  if log.suppresses op then ((log, dir), .ok 0)
  else
    let (log, dir) := if log.segmentVanished then log.recoverSegment dir else (log, dir)
    match log.rotateIfNeeded dir io with
    | ((log, dir), .error e) => ((log, dir), .error e)
    | ((log, dir), .ok ()) => log.appendRecord W dir io op

/-- What a replay sees of the log. -/
def view (log : OpLog F) (older : FileName → Bool) : LogView :=
  ⟨log.instanceId, log.vectorSpaceId, log.currentSegmentPath, older⟩

/-- The log after a replay. -/
def afterReplay (log : OpLog F) (outcome : ReplayOutcome F) : OpLog F :=
  match outcome.result with
  | .error _ => { log with replayInventory := outcome.inventory }
  | .ok r =>
    { log with
      replayInventory := outcome.inventory
      chainHead := r.chainHead
      appendedBytes := max log.appendedBytes r.recoveredBytes
      appendedRecords := max log.appendedRecords r.recoveredRecords }

/-- Replay all segments. -/
def replay (W : Wire F) (log : OpLog F) (dir : SegDir) (older : FileName → Bool) :
    OpLog F × ReplayOutcome F :=
  let outcome := replayCertified W (log.view older) none dir
  (log.afterReplay outcome, outcome)

/-- Advance the next sequence number after a replay. -/
def setNextSeqno (log : OpLog F) (seqno : ℕ) : OpLog F :=
  if log.nextSeqno < seqno then { log with nextSeqno := seqno } else log

/-! ## What each operation leaves behind -/

/-- A replay changes the chain tip and the account of the log, not where it writes. -/
lemma exists_afterReplay_eq (log : OpLog F) (outcome : ReplayOutcome F) :
    ∃ inventory chainHead bytes records, log.afterReplay outcome =
      { log with
        replayInventory := inventory
        chainHead := chainHead
        appendedBytes := bytes
        appendedRecords := records } := by
  unfold afterReplay
  split <;> exact ⟨_, _, _, _, rfl⟩

lemma setNextSeqno_eq (log : OpLog F) (seqno : ℕ) :
    log.setNextSeqno seqno = { log with nextSeqno := max log.nextSeqno seqno } := by
  unfold setNextSeqno
  split
  · rename_i h
    rw [max_eq_right h.le]
  · rename_i h
    rw [max_eq_left (Nat.le_of_not_lt h)]

/-- `log'` differs from `log` at most in what recoveries and syncs change: the handle and the
counters. -/
def Touched (log log' : OpLog F) : Prop :=
  ∃ handle recoveries syncCount opsSinceSync, log' =
    { log with
      currentSegment := handle
      recoveries := recoveries
      syncCount := syncCount
      opsSinceSync := opsSinceSync }

lemma Touched.refl (log : OpLog F) : log.Touched log := ⟨_, _, _, _, rfl⟩

lemma Touched.trans {log log' log'' : OpLog F} (h : log.Touched log') (h' : log'.Touched log'') :
    log.Touched log'' := by
  obtain ⟨_, _, _, _, rfl⟩ := h
  obtain ⟨_, _, _, _, rfl⟩ := h'
  exact ⟨_, _, _, _, rfl⟩

/-- The open segment stands at its path with these bytes, and the handle writes behind them. -/
structure At (log : OpLog F) (dir : SegDir) (bytes : Bytes) : Prop where
  linked : log.currentSegment.file = .linked
  read : dir.read log.currentSegmentPath = some bytes
  pos : log.currentSegment.pos = none ∨ log.currentSegment.pos = some bytes.length

/-- The open segment has vanished without a trace. -/
structure Gone (log : OpLog F) (dir : SegDir) : Prop where
  detached : ∃ bytes, log.currentSegment.file = .detached bytes 0
  missing : dir.read log.currentSegmentPath = none

/-- The open segment holds the accepted bytes or is gone. -/
def Sound (log : OpLog F) (dir : SegDir) : Prop := log.At dir log.acceptedPrefix ∨ log.Gone dir

variable {dir : SegDir}

lemma Sound.congr {log log' : OpLog F} (h : log.Sound dir)
    (hsegment : log'.currentSegment = log.currentSegment)
    (hpath : log'.currentSegmentPath = log.currentSegmentPath)
    (hcopy : log'.acceptedPrefix = log.acceptedPrefix) : log'.Sound dir := by
  rcases h with ⟨hlinked, hread, hpos⟩ | ⟨hdetached, hmissing⟩
  · exact Or.inl ⟨hsegment ▸ hlinked, by rw [hpath, hcopy, hread], by rw [hsegment, hcopy]; exact hpos⟩
  · exact Or.inr ⟨hsegment ▸ hdetached, hpath ▸ hmissing⟩

/-- The files other than the open segment are the same in both directories. -/
def OthersKept (log : OpLog F) (dir dir' : SegDir) : Prop :=
  ∀ name ≠ log.currentSegmentPath, dir'.read name = dir.read name

variable {log : OpLog F} {bytes : Bytes}

lemma At.not_vanished (h : log.At dir bytes) : log.segmentVanished = false := by
  simp [segmentVanished, h.linked]

lemma Gone.vanished (h : log.Gone dir) : log.segmentVanished = true := by
  obtain ⟨bytes, hb⟩ := h.detached
  simp [segmentVanished, hb]

lemma writeAll_touched (log : OpLog F) (dir : SegDir) (new : Bytes) :
    log.Touched (log.writeAll dir new).1 := by
  unfold writeAll
  split <;> exact ⟨_, _, _, _, rfl⟩

lemma writeAll_others (log : OpLog F) (dir : SegDir) (new : Bytes) :
    log.OthersKept dir (log.writeAll dir new).2 := by
  intro name hne
  unfold writeAll
  split
  · exact dir.read_write_of_ne _ hne
  · rfl

lemma writeAt_length (bytes new : Bytes) : writeAt bytes bytes.length new = bytes ++ new := by
  simp [writeAt]

/-- Writing behind the bytes of the segment appends. -/
lemma At.writeAll (h : log.At dir bytes) (new : Bytes) :
    (log.writeAll dir new).1.At (log.writeAll dir new).2 (bytes ++ new) := by
  obtain ⟨hlinked, hread, hpos⟩ := h
  rcases hpos with hpos | hpos <;>
    constructor <;> simp [OpLog.writeAll, hlinked, hread, hpos, Handle.put, writeAt_length]

/-- A recovery installs the accepted bytes and changes nothing else. -/
lemma recoverSegment_spec (log : OpLog F) (dir : SegDir) :
    log.Touched (log.recoverSegment dir).1 ∧
      (log.recoverSegment dir).1.At (log.recoverSegment dir).2 log.acceptedPrefix ∧
      log.OthersKept dir (log.recoverSegment dir).2 :=
  ⟨⟨_, _, _, _, rfl⟩, ⟨rfl, dir.read_write_self _ _, Or.inr rfl⟩,
    fun _ hne => dir.read_write_of_ne _ hne⟩

/-- The open segment holds `bytes`, or it is gone and the copy holds them. -/
def Holds (log : OpLog F) (dir : SegDir) (bytes : Bytes) : Prop :=
  log.At dir bytes ∨ log.Gone dir ∧ bytes = log.acceptedPrefix

/-- No call needs the copy, or it holds `bytes`. -/
def Backed (log : OpLog F) (io : Io) (bytes : Bytes) : Prop :=
  io.write = none ∧ io.syncFails = false ∨ bytes = log.acceptedPrefix

lemma Sound.holds (h : log.Sound dir) : log.Holds dir log.acceptedPrefix :=
  h.imp_right fun h => ⟨h, rfl⟩

/-- The open segment holds its bytes again after a check for it. -/
lemma recover_if_vanished (h : log.Holds dir bytes) :
    ∃ log' dir', (if log.segmentVanished then log.recoverSegment dir else (log, dir)) =
        (log', dir') ∧
      log.Touched log' ∧ log'.At dir' bytes ∧ log.OthersKept dir dir' := by
  rcases h with h | ⟨h, rfl⟩
  · exact ⟨log, dir, by simp [h.not_vanished], .refl log, h, fun _ _ => rfl⟩
  · obtain ⟨htouched, hat, hothers⟩ := recoverSegment_spec log dir
    exact ⟨_, _, by simp only [h.vanished, if_true], htouched, hat, hothers⟩

/-- A record is written behind the bytes of the segment, whether or not the first attempt
fails. -/
lemma At.writeRecord (h : log.At dir bytes) {io : Io} (hio : log.Backed io bytes) (new : Bytes) :
    log.Touched (log.writeRecord dir io new).1 ∧
      (log.writeRecord dir io new).1.At (log.writeRecord dir io new).2 (bytes ++ new) ∧
      log.OthersKept dir (log.writeRecord dir io new).2 := by
  unfold OpLog.writeRecord
  cases hwrite : io.write with
  | none => exact ⟨writeAll_touched _ _ _, h.writeAll new, writeAll_others _ _ _⟩
  | some k =>
    obtain rfl : bytes = log.acceptedPrefix :=
      hio.resolve_left fun hclean => by simp [hwrite] at hclean
    have htouched₁ := writeAll_touched log dir (new.take k)
    have hothers₁ := writeAll_others log dir (new.take k)
    dsimp only
    generalize log.writeAll dir (new.take k) = s at htouched₁ hothers₁ ⊢
    obtain ⟨log₁, dir₁⟩ := s
    obtain ⟨htouched₂, hat₂, hothers₂⟩ := recoverSegment_spec log₁ dir₁
    have htouched₃ := writeAll_touched (log₁.recoverSegment dir₁).1 (log₁.recoverSegment dir₁).2 new
    have hothers₃ := writeAll_others (log₁.recoverSegment dir₁).1 (log₁.recoverSegment dir₁).2 new
    obtain ⟨_, _, _, _, rfl⟩ := htouched₁
    refine ⟨(Touched.trans ⟨_, _, _, _, rfl⟩ htouched₂).trans htouched₃, hat₂.writeAll new, ?_⟩
    intro name hne
    exact (hothers₃ name hne).trans ((hothers₂ name hne).trans (hothers₁ name hne))

/-- A sync without a race leaves the bytes of the segment at the path. -/
lemma sync_spec (h : log.Holds dir bytes) {io : Io} (hio : io.vanish = none)
    (hbacked : log.Backed io bytes) :
    log.Touched (log.sync dir io).1 ∧ (log.sync dir io).1.At (log.sync dir io).2 bytes ∧
      log.OthersKept dir (log.sync dir io).2 := by
  have hcond : (log.segmentVanished = true ∨ dir.read log.currentSegmentPath = none) ↔
      log.segmentVanished = true := by
    rcases h with h | ⟨h, -⟩
    · simp [h.read]
    · simp [h.vanished]
  obtain ⟨log₁, dir₁, heq, ⟨_, _, _, _, rfl⟩, hat, hothers⟩ := recover_if_vanished h
  simp only [sync, hcond, heq, vanishDuring, hio]
  cases hfails : io.syncFails with
  | false => exact ⟨⟨_, _, _, _, rfl⟩, ⟨hat.linked, hat.read, hat.pos⟩, hothers⟩
  | true =>
    obtain rfl : bytes = log.acceptedPrefix :=
      hbacked.resolve_left fun hclean => by simp [hfails] at hclean
    refine ⟨⟨_, _, _, _, rfl⟩, ⟨rfl, dir₁.read_write_self _ _, Or.inr rfl⟩, fun name hne => ?_⟩
    exact (dir₁.read_write_of_ne _ hne).trans (hothers name hne)

/-- The log after a rotation. -/
def rotated (log : OpLog F) : OpLog F :=
  { log with
    acceptedPrefix := headerV3 log.nextSeqno log.chainHead log.vectorSpaceId
    currentSegmentPath := segmentPath log.instanceId log.nextSeqno
    currentSegmentSize := v3HeaderSize }

/-- The segment is full and the name of the next one is taken. -/
def RotationBlocked (log : OpLog F) (dir : SegDir) : Prop :=
  maxSegmentSize ≤ log.currentSegmentSize ∧
    ((dir.read log.rotated.currentSegmentPath).isSome ∨
      log.rotated.currentSegmentPath = log.currentSegmentPath)

/-- What a check for rotation leaves: the segment as it was, or a new one that holds its header. -/
inductive Rotation (log : OpLog F) (dir : SegDir) (bytes : Bytes) :
    (OpLog F × SegDir) × Except FieldError Unit → Prop
  | stays {log' : OpLog F} {dir' : SegDir} {res : Except FieldError Unit}
    (hok : res = .ok () → log.currentSegmentSize < maxSegmentSize)
    (herr : res ≠ .ok () → log.RotationBlocked dir)
    (htouched : log.Touched log') (hat : log'.At dir' bytes)
    (hothers : log.OthersKept dir dir') : Rotation log dir bytes ((log', dir'), res)
  | rotates {log' : OpLog F} {dir' : SegDir}
    (hfull : maxSegmentSize ≤ log.currentSegmentSize) (htouched : log.rotated.Touched log')
    (hat : log'.At dir' log.rotated.acceptedPrefix)
    (hne : log.rotated.currentSegmentPath ≠ log.currentSegmentPath)
    (hold : dir'.read log.currentSegmentPath = some bytes)
    (hothers : ∀ name ≠ log.currentSegmentPath, name ≠ log.rotated.currentSegmentPath →
      dir'.read name = dir.read name) : Rotation log dir bytes ((log', dir'), .ok ())

lemma rotateIfNeeded_spec (h : log.At dir bytes) {io : Io} (hio : log.Backed io bytes) :
    Rotation log dir bytes (log.rotateIfNeeded dir io) := by
  unfold rotateIfNeeded
  split
  · rename_i hlt
    exact .stays (fun _ => hlt) (fun hne => absurd rfl hne) (.refl log) h fun _ _ => rfl
  · rename_i hfull
    obtain ⟨htouched, hat, hothers⟩ := sync_spec (Or.inl h)
      (rfl : ({ io with vanish := none } : Io).vanish = none)
      hio
    dsimp only
    generalize log.sync dir { io with vanish := none } = s at htouched hat hothers ⊢
    obtain ⟨log₁, dir₁⟩ := s
    obtain ⟨_, _, _, _, rfl⟩ := htouched
    unfold createSegmentV3
    split
    · rename_i res heq
      split at heq
      · rename_i hsome
        cases heq
        refine .stays (fun h => by cases h) (fun _ => ⟨Nat.le_of_not_lt hfull, ?_⟩)
          ⟨_, _, _, _, rfl⟩ hat hothers
        by_cases hpath : segmentPath log.instanceId log.nextSeqno = log.currentSegmentPath
        · exact Or.inr hpath
        · exact Or.inl (by rwa [hothers _ hpath] at hsome)
      · cases heq
    · rename_i res heq
      split at heq
      · cases heq
      · rename_i hnone
        cases heq
        have hne : segmentPath log.instanceId log.nextSeqno ≠ log.currentSegmentPath := by
          intro hpath
          simp only [hpath, hat.read] at hnone
          exact hnone rfl
        refine .rotates (Nat.le_of_not_lt hfull) ⟨_, _, _, _, rfl⟩
          ⟨rfl, dir₁.read_write_self _ _, Or.inr rfl⟩ hne ?_ fun name hname hname' => ?_
        · exact (dir₁.read_write_of_ne _ hne.symm).trans hat.read
        · exact (dir₁.read_write_of_ne _ hname').trans (hothers name hname)

/-- The log that the next record goes to and the bytes of its segment: the log itself, or the
rotated log.  Then `dir'` differs from `dir` only in the open segment and in the closed one. -/
def Continues (log : OpLog F) (dir dir' : SegDir) (bytes : Bytes) (base : OpLog F)
    (baseBytes : Bytes) : Prop :=
  base = log ∧ baseBytes = bytes ∧ log.OthersKept dir dir' ∨
    base = log.rotated ∧ baseBytes = log.rotated.acceptedPrefix ∧
      maxSegmentSize ≤ log.currentSegmentSize ∧
      base.currentSegmentPath ≠ log.currentSegmentPath ∧
      dir'.read log.currentSegmentPath = some bytes ∧
      ∀ name ≠ log.currentSegmentPath, name ≠ base.currentSegmentPath →
        dir'.read name = dir.read name

/-- What an append to `base` leaves: after an error the segment holds what it held; otherwise the
record stands behind that, and in the copy. -/
def Appended (W : Wire F) (base : OpLog F) (baseBytes : Bytes) (op : Op F) (blocked : Prop)
    (out : (OpLog F × SegDir) × Except FieldError ℕ) : Prop :=
  (∃ e, out.2 = .error e) ∧ base.Touched out.1.1 ∧ out.1.1.At out.1.2 baseBytes ∧
      (blocked ∨ ∃ e, W.toVec op = .error e) ∨
    ∃ payload, W.toVec op = .ok payload ∧ out.2 = .ok base.nextSeqno ∧
      (base.acknowledge W (base.record op payload)).Touched out.1.1 ∧
      out.1.1.At out.1.2 (baseBytes ++ (base.record op payload).encode W)

lemma appendRecord_spec (W : Wire F) (base : OpLog F) {baseBytes : Bytes}
    (htouched : base.Touched log) (hat : log.At dir baseBytes) {io : Io} (hio : io.vanish = none)
    (hbacked : base.Backed io baseBytes) (op : Op F) (blocked : Prop) :
    Appended W base baseBytes op blocked (log.appendRecord W dir io op) ∧
      base.OthersKept dir (log.appendRecord W dir io op).1.2 := by
  obtain ⟨_, _, _, _, rfl⟩ := htouched
  unfold appendRecord
  cases hvec : W.toVec op with
  | error e =>
    exact ⟨Or.inl ⟨⟨_, rfl⟩, ⟨_, _, _, _, rfl⟩, hat, Or.inr ⟨e, hvec⟩⟩, fun _ _ => rfl⟩
  | ok payload =>
    obtain ⟨htouched, hat', hothers⟩ := hat.writeRecord hbacked
      ((base.record op payload).encode W)
    simp only [vanishDuring, hio]
    refine ⟨Or.inr ⟨payload, hvec, rfl, ?_, ?_⟩, hothers⟩
    · obtain ⟨_, _, _, _, heq⟩ := htouched
      exact ⟨_, _, _, _, congrArg (acknowledge W · (base.record op payload)) heq⟩
    · exact ⟨hat'.linked, hat'.read, hat'.pos⟩

lemma append_spec (W : Wire F) (h : log.Holds dir bytes) {io : Io} (hio : io.vanish = none)
    (hbacked : log.Backed io bytes) {op : Op F} (hop : log.suppresses op = false) :
    ∃ base baseBytes, log.Continues dir (log.append W dir io op).1.2 bytes base baseBytes ∧
      Appended W base baseBytes op (log.RotationBlocked dir) (log.append W dir io op) := by
  obtain ⟨log₁, dir₁, heq, htouched₁, hat, hothers⟩ := recover_if_vanished h
  simp only [append, hop, heq, Bool.false_eq_true, if_false]
  obtain ⟨_, _, _, _, rfl⟩ := htouched₁
  have hrot := rotateIfNeeded_spec hat hbacked
  generalize rotateIfNeeded _ _ _ = out at hrot ⊢
  cases hrot with
  | stays hok herr htouched hat₂ hothers₂ =>
    rename_i log₂ dir₂ res
    have hkept : log.OthersKept dir dir₂ := fun name hne =>
      (hothers₂ name hne).trans (hothers name hne)
    cases res with
    | error e =>
      refine ⟨log, bytes, Or.inl ⟨rfl, rfl, hkept⟩, Or.inl ⟨⟨e, rfl⟩, ?_, hat₂, Or.inl ?_⟩⟩
      · exact Touched.trans ⟨_, _, _, _, rfl⟩ htouched
      · obtain ⟨hfull, hblocked⟩ := herr (by simp)
        refine ⟨hfull, ?_⟩
        by_cases hpath : log.rotated.currentSegmentPath = log.currentSegmentPath
        · exact Or.inr hpath
        · rw [← hothers _ hpath]
          exact hblocked
    | ok u =>
      obtain ⟨happ, hothers₃⟩ := appendRecord_spec W log
        (Touched.trans ⟨_, _, _, _, rfl⟩ htouched) hat₂ hio hbacked op (log.RotationBlocked dir)
      exact ⟨log, bytes, Or.inl ⟨rfl, rfl, fun name hne =>
        (hothers₃ name hne).trans (hkept name hne)⟩, happ⟩
  | rotates hfull htouched hat₂ hne hold hothers₂ =>
    obtain ⟨happ, hothers₃⟩ := appendRecord_spec W log.rotated
      (Touched.trans ⟨_, _, _, _, rfl⟩ htouched) hat₂ hio (Or.inr rfl) op
      (log.RotationBlocked dir)
    refine ⟨log.rotated, _, Or.inr ⟨rfl, rfl, hfull, hne, ?_, fun name hname hname' => ?_⟩, happ⟩
    · exact (hothers₃ _ hne.symm).trans hold
    · exact (hothers₃ name hname').trans ((hothers₂ name hname hname').trans (hothers name hname))

end OpLog

end ChittaField
