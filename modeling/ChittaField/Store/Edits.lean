import ChittaField.Store.Keyed
import ChittaField.Store.Membership

/-!
# Edits of a running store and of an open

A running store changes its indexes by code of its own when a memory is stored, edited or forgotten:
what is indexed of a new content is not always what an open indexes of it, and a new realm is not
logged at all.  `EditStore` is the running store with the indexes, `reopen` what an open makes of
its log.

The log is that of one instance and is replayed as it was written.  What the observer finds in a new
content, and how much of it is indexed, is an input of the call.
-/

namespace ChittaField

variable {F : Type}

/-! ## What is indexed of a text -/

/-- How much of a text is indexed. -/
inductive FilterLevel where
  | none
  | signatures
  | minimalContext
  deriving DecidableEq, Repr

/-- The lines of a text, without their ends. -/
def textLines (s : List Char) : List (List Char) :=
  let parts := s.splitOnP (· == '\n')
  parts.dropLast.map (fun l => if l.getLast? = some '\r' then l.dropLast else l) ++
    (parts.getLast?.filter (· ≠ [])).toList

/-- What a signature starts with. -/
def signatureStarts : List String :=
  ["pub fn ", "fn ", "pub struct ", "struct ", "pub enum ", "enum ", "pub trait ", "trait ", "impl ",
    "pub impl ", "pub type ", "type ", "pub const ", "const ", "def ", "class ", "function ",
    "async fn ", "pub async fn "]

def isSignatureLine (line : List Char) : Bool :=
  signatureStarts.any fun pre => pre.toList.isPrefixOf (line.dropWhile isWhitespace)

def joinLines (lines : List (List Char)) : String :=
  String.intercalate "\n" (lines.map String.ofList)

def extractSignatures (content : String) : String :=
  joinLines ((textLines content.toList).filter isSignatureLine)

/-- A line is a comment. -/
def isDocLine (line : List Char) : Bool :=
  ["///", "//", "#"].any fun pre => pre.toList.isPrefixOf (trim line)

/-- The signatures, each behind the comment over it; `prev` is the line before. -/
def signaturesWithDocs : Option (List Char) → List (List Char) → List (List Char)
  | _, [] => []
  | prev, line :: lines =>
    (if isSignatureLine line then (prev.filter isDocLine).toList ++ [line] else []) ++
      signaturesWithDocs (some line) lines

def extractSignaturesWithDocs (content : String) : String :=
  joinLines (signaturesWithDocs none (textLines content.toList))

def extractBm25Text (content : String) : FilterLevel → String
  | .none => content
  | .signatures => extractSignatures content
  | .minimalContext => extractSignaturesWithDocs content

/-! ## The running store -/

/-- The running store with the indexes that edits change. -/
structure EditStore (F : Type) extends LiveStore F where
  semanticIdx : SemanticIds
  keywordIdx : KeywordIndex
  realmMembers : Members
  kindMembers : Members

/-- A call that edits. -/
inductive EditCall (F : Type) where
  /-- Store a memory; `level` is how much of it is indexed, and `canonicals` what the observer finds
  in it. -/
  | putMemory (call : LiveStore.PutCall F) (env : LiveStore.PutEnv F) (level : FilterLevel)
      (canonicals : List String)
  | updateMemoryContent (op : UpdateMemoryContentOp F) (append : Except FieldError Unit)
  | updateMemoryKind (op : UpdateMemoryKindOp) (append : Except FieldError Unit)
  | setRealm (memoryId : MemoryId) (newRealm : String)
  | forget (memoryId : MemoryId) (env : LiveStore.ForgetEnv F)

namespace EditStore

/-- A store without memories, whose first memory will be `firstId`. -/
def empty (firstId : MemoryId) : EditStore F :=
  ⟨.empty firstId, .new, .new, fun _ => none, fun _ => none⟩

/-- What is indexed of a new content. -/
def indexText (content : Bytes) (level : FilterLevel) (canonicals : List String) : String :=
  if canonicals.isEmpty then extractBm25Text (decodeText content) level
  else extractBm25Text (decodeText content) level ++ " " ++
    extractBm25Text (String.intercalate ". " canonicals) level

/-- Replace the content of a memory. -/
def updateMemoryContent (T : Casing) (embedDim : ℕ) (s : EditStore F)
    (op : UpdateMemoryContentOp F) (append : Except FieldError Unit) : EditStore F :=
  if !op.embedding.isEmpty && op.embedding.length ≠ embedDim then s
  else if (s.ctx.payloads op.memoryId).isNone || !append.isOk then s
  else
    { s with
      ctx := s.ctx.modifyPayload op.memoryId fun p =>
        { p with
          content := op.content
          embedding := if op.embedding.isEmpty then p.embedding else [] }
      wal := s.wal ++ [.updateMemoryContent op]
      semanticIdx :=
        if op.embedding.isEmpty then s.semanticIdx
        else s.semanticIdx.upsert op.memoryId op.embedding.length
      keywordIdx := s.keywordIdx.index T op.memoryId (Lossy.fromUtf8Lossy op.content) }

/-- Give a memory another kind.  The kind is logged before it is known whether there is such a
memory. -/
def updateMemoryKind (s : EditStore F) (op : UpdateMemoryKindOp)
    (append : Except FieldError Unit) : EditStore F :=
  if append.isOk then
    { s with
      ctx := s.ctx.modifyPayload op.memoryId ({ · with kind := op.newKind })
      wal := s.wal ++ [.updateMemoryKind op] }
  else s

/-- Give a memory another realm. -/
def setRealm (s : EditStore F) (memoryId : MemoryId) (newRealm : String) : EditStore F :=
  match s.ctx.payloads memoryId with
  | none => s
  | some p =>
    { s with
      ctx := s.ctx.modifyPayload memoryId ({ · with realm := newRealm })
      realmMembers := Members.insert
        (Maps.modifyAt s.realmMembers p.realm fun ids => ids.erase memoryId) newRealm memoryId }

/-- Forget a memory. -/
def forget (s : EditStore F) (memoryId : MemoryId) (env : LiveStore.ForgetEnv F) : EditStore F :=
  let live := (s.toLiveStore.forget memoryId env).1
  if (s.ctx.states memoryId).isSome && env.append.isOk && env.sync.isOk then
    { toLiveStore := live
      semanticIdx := s.semanticIdx.remove memoryId
      keywordIdx := s.keywordIdx.remove memoryId
      realmMembers := (s.ctx.payloads memoryId).elim s.realmMembers fun p =>
        s.realmMembers.remove p.realm memoryId
      kindMembers := (s.ctx.payloads memoryId).elim s.kindMembers fun p =>
        s.kindMembers.remove p.kind memoryId }
  else { s with toLiveStore := live }

variable [F32 F]

/-- Store a memory, and index it if it is new. -/
def putMemory (T : Casing) (cfg : WriteConfig F) (s : EditStore F) (call : LiveStore.PutCall F)
    (env : LiveStore.PutEnv F) (level : FilterLevel) (canonicals : List String) : EditStore F :=
  let live := (s.toLiveStore.putMemory cfg call env).1
  if KeyedStore.stores cfg s.toLiveStore call env then
    { toLiveStore := live
      semanticIdx :=
        if call.embedPending then s.semanticIdx
        else s.semanticIdx.upsert s.nextId call.embedding.length
      keywordIdx :=
        -- the configuration of a process is not prose
        if call.kind = "process" then s.keywordIdx
        else s.keywordIdx.index T s.nextId (indexText call.content level canonicals)
      realmMembers := s.realmMembers.insert call.realm s.nextId
      kindMembers := s.kindMembers.insert call.kind s.nextId }
  else { s with toLiveStore := live }

/-- Make a call. -/
def call (T : Casing) (cfg : WriteConfig F) (s : EditStore F) (c : EditCall F) :
    EditStore F × List (Op F) :=
  match c with
  | .putMemory call env level canonicals => (s.putMemory T cfg call env level canonicals, [])
  | .updateMemoryContent op append => (s.updateMemoryContent T cfg.embedDim op append, [])
  | .updateMemoryKind op append => (s.updateMemoryKind op append, [])
  | .setRealm memoryId newRealm => (s.setRealm memoryId newRealm, [])
  | .forget memoryId env => (s.forget memoryId env, [])

/-! ## An open -/

omit [F32 F] in
/-- A vector is not of the length that the store was built for. -/
def wrongDim (embedDim : ℕ) (c : IndexCtx F) (id : MemoryId) : Bool :=
  (c.semanticIdx.dims id).any (· ≠ embedDim)

omit [F32 F] in
/-- Purge the vectors of a wrong length, and ask for the vectors of the live memories that had one
of these, or have content and none. -/
def reconcileEmbeddings (embedDim : ℕ) (c : IndexCtx F) : IndexCtx F :=
  let dims id := if wrongDim embedDim c id then none else c.semanticIdx.dims id
  { c with
    semanticIdx := ⟨dims, fun id => !wrongDim embedDim c id && c.semanticIdx.deleted id⟩
    ctx := { c.ctx with
      states := fun id => (c.ctx.states id).map fun st =>
        if !st.deleted && (wrongDim embedDim c id || ((dims id).isNone &&
            (c.ctx.payloads id).any fun p => LiveStore.minEmbedChars ≤ p.content.length))
        then { st with embedPending := true }
        else st } }

/-- What an open makes of a log. -/
def reopen (T : Casing) (embedDim : ℕ) (wal : List (Op F)) : IndexCtx F :=
  let c := reconcileEmbeddings embedDim (applyAllIndexed T wal .empty)
  { c with
    realmMembers := buildRealmMembers (HdcField.putIds wal) c.ctx
    kindMembers := buildKindMembers (HdcField.putIds wal) c.ctx }

end EditStore

end ChittaField
