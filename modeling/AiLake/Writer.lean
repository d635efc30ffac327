import AiLake.Compaction

/-! `writer.rs`: writing batches and committing them as an Append, and the background job that
gives a deferred file its index. -/
namespace AiLake

open StoreProgram

/-- One call of `write_batch` or of its deferred variant. -/
structure BatchWrite where
  batch : RecordBatch
  embeddings : List (List F32)
  batchId : Option String
  deferred : Bool

structure FtsConfig where
  textColumns : List String
  tokenizer : String
  deriving DecidableEq, Repr

/-- A writer session: `session` is the UUID in the names of its files. -/
structure TableWriter where
  policy : VectorStoragePolicy
  fts : Option FtsConfig
  session : String
  parentSnapshotId : Option SnapshotId
  deriving DecidableEq, Repr

/- `{:05}`. -/
def fiveDigits (n : Nat) : String :=
  String.ofList (List.replicate (5 - (toString n).length) '0') ++ toString n

def TableWriter.partPath (writer : TableWriter) (n : Nat) : String :=
  "data/part-" ++ writer.session ++ "-" ++ fiveDigits n ++ ".parquet"

/- `emb.len() as u32`. -/
def actualDim (embedding : List F32) : Nat := embedding.length % 2 ^ 32

def validateEmbeddingDim (policy : VectorStoragePolicy) : List (List F32) → Except AilakeError Unit
  | [] => .ok ()
  | embedding :: rest =>
    if actualDim embedding ≠ policy.dim then
      .error (.modelMismatch (policy.embeddingModel.getD ("dim=" ++ toString policy.dim)) policy.dim
        ("dim=" ++ toString (actualDim embedding)) (actualDim embedding))
    else if embedding.all F32.isFinite then validateEmbeddingDim policy rest
    else .error (.catalog "embedding contains non-finite value")

/- `merge_schema`: columns that a later batch adds are kept, in the order they were first seen. -/
def mergeSchema (existing : Option (List Field)) (new : List Field) : List Field :=
  match existing with
  | none => new
  | some fields => fields ++ new.filter fun f => f.name ∉ fields.map (·.name)

def FtsConfig.properties (cfg : FtsConfig) : List (String × String) :=
  [("ailake.fts.enabled", "true"), ("ailake.fts.text-columns", ",".intercalate cfg.textColumns),
    ("ailake.fts.tokenizer", cfg.tokenizer)]

section Append

variable (site : Site) (fmt : FileFormat) (writer : TableWriter)

def TableWriter.dataFile (b : BatchWrite) : Except AilakeError DataFile :=
  if b.deferred then writeDataFile writer.policy b.batch b.embeddings none false
  else writeDataFile writer.policy b.batch b.embeddings (some ⟨.hnsw, b.embeddings.length⟩)
    (writer.fts.isSome && fmt.ftsBuilds b.batch)

/-- The entry that a write stages; an idempotency key is kept for blocking writes only. -/
def TableWriter.entry (b : BatchWrite) (path : String) (file : DataFile) : DataFileEntry :=
  let made :=
    if b.deferred then makeDataFileEntryIndexing path b.embeddings.length (fmt.size file)
      (fmt.centroid b.embeddings) writer.policy.columnName writer.policy.dim
    else { makeDataFileEntry path b.embeddings.length (fmt.size file) (fmt.centroid b.embeddings)
        ⟨writer.policy.columnName, writer.policy.dim, fmt.indexOffset file, fmt.indexLen file⟩ with
      batchId := b.batchId }
  { made with
    embeddingModel := writer.policy.embeddingModel
    partitionValue := writer.policy.partitionValue
    columnStats := fmt.columnStats file }

def writeBatch (b : BatchWrite) (path : String) : Program DataFileEntry := do
  Prog.ofExcept (validateEmbeddingDim writer.policy b.embeddings)
  let file ← Prog.ofExcept (writer.dataFile fmt b)
  putObject site path (.dataFile file)
  pure (writer.entry fmt b path file)

def writeBatches : Nat → List BatchWrite → Program (List DataFileEntry)
  | _, [] => pure []
  | n, b :: rest => do
    let entry ← writeBatch site fmt writer b (writer.partPath n)
    let entries ← writeBatches (n + 1) rest
    pure (entry :: entries)

def appendSnapshot (writes : List BatchWrite) (files : List DataFileEntry)
    (snapshotId : SnapshotId) : NewSnapshot where
  snapshotId := snapshotId
  parentSnapshotId := writer.parentSnapshotId
  files := files
  operation := .append
  icebergSchema := (writes.foldl (fun s b => some (mergeSchema s b.batch.schema)) none).map
    fun schema => arrowSchemaToIcebergUpdate schema writer.policy.vectorColumn []
  extraProperties := (writer.fts.map (·.properties)).getD []
  bloomFilters := []
  equalityDeleteFiles := []

/-- A writer's whole session: its writes, then its commit, which does nothing without a file. -/
def appendBatches (writes : List BatchWrite) (snapshotId : SnapshotId) (nowMs : Int) :
    Program SnapshotId := do
  let files ← writeBatches site fmt writer 0 writes
  if files.isEmpty then do
    let current ← currentSnapshotOrNone site
    pure (current.getD 0)
  else commitSnapshot site (appendSnapshot writer writes files snapshotId) nowMs

end Append

section IndexJob

variable (site : Site) (fmt : FileFormat)

/- The poll for the writer's own commit. -/
def waitForCommit : Nat → Program Bool
  | 0 => pure false
  | n + 1 => do
    match ← currentSnapshotOrNone site with
    | some _ => pure true
    | none => waitForCommit n

def isReady (filePath : String) (files : List DataFileEntry) : Bool :=
  files.any fun f => f.path = filePath ∧ f.indexStatus = .ready

def patchFirst (filePath : String) (change : DataFileEntry → DataFileEntry) :
    List DataFileEntry → List DataFileEntry
  | [] => []
  | f :: rest => if f.path = filePath then change f :: rest else f :: patchFirst filePath change rest

def markReady (fmt : FileFormat) (file : DataFile) (f : DataFileEntry) : DataFileEntry :=
  { f with
    hnswOffset := some (fmt.indexOffset file)
    hnswLen := some (fmt.indexLen file)
    indexStatus := .ready }

/- Every attempt commits a Replace of the list it has just read, until the entry is found ready.
An attempt brings its own snapshot id. -/
def patchCatalog (filePath : String) (file : DataFile) (nowMs : Int) :
    List SnapshotId → Program Unit
  | [] => pure ()
  | snapshotId :: rest => do
    let table ← loadTable site
    let files ← listFiles site none
    if isReady filePath files then pure ()
    else do
      let _ ← commitSnapshot site (replaceSnapshot snapshotId table.currentSnapshotId
        (patchFirst filePath (markReady fmt file) files)) nowMs
      let verify ← listFiles site none
      if isReady filePath verify then pure () else patchCatalog filePath file nowMs rest

/-- `build_and_patch_index_with_job`: the rows are written back in place with an index. -/
def buildAndPatchIndex (policy : VectorStoragePolicy) (filePath : String)
    (attempts : List SnapshotId) (nowMs : Int) : Program Unit := do
  let stored ← getDataFile site filePath
  let pair ← Prog.ofExcept stored.readParquet
  let file ← Prog.ofExcept (writeDataFile policy pair.1 pair.2 (some ⟨.hnsw, pair.2.length⟩) false)
  Prog.ofExcept file.verifyIntegrity
  putObject site filePath (.dataFile file)
  if ← waitForCommit site 120 then patchCatalog site fmt filePath file nowMs attempts
  else .fail .store

def markFailed (reason : String) (f : DataFileEntry) : DataFileEntry :=
  { f with indexStatus := .failed, indexError := some reason }

/- `patch_index_failed`: every error on the way is only logged. -/
def patchIndexFailed (filePath reason : String) (snapshotId : SnapshotId) (nowMs : Int) :
    Program Unit := do
  match ← (loadTable site).attempt with
  | .error _ => pure ()
  | .ok table => do
    match ← (listFiles site none).attempt with
    | .error _ => pure ()
    | .ok files => do
      let _ ← (commitSnapshot site (replaceSnapshot snapshotId table.currentSnapshotId
        (patchFirst filePath (markFailed reason) files)) nowMs).attempt
      pure ()

end IndexJob

section MemTable

/-- `mem_table.rs`: micro-batches that wait for a flush, and the vectors of all of them. -/
structure MemTable where
  pendingBatches : List RecordBatch
  pendingEmbeddings : List (List F32)

namespace MemTable

def empty : MemTable := ⟨[], []⟩

/- The flush that `insert` makes when a threshold is passed is a call of its own here. -/
def insert (mt : MemTable) (batch : RecordBatch) (embeddings : List (List F32)) : MemTable :=
  ⟨mt.pendingBatches ++ [batch], mt.pendingEmbeddings ++ embeddings⟩

/- Without a batch the source panics at `pending_batches[0]`. -/
def merged (mt : MemTable) : Except AilakeError RecordBatch :=
  match mt.pendingBatches with
  | [] => .error (.arrow "no batches")
  | [batch] => .ok batch
  | first :: _ =>
    match concatBatches first.schema mt.pendingBatches with
    | none => .error (.arrow "schemas do not match")
    | some batch => .ok batch

/-- One deferred write of everything, by a writer of its own. -/
def flush (site : Site) (fmt : FileFormat) (policy : VectorStoragePolicy) (mt : MemTable)
    (session : String) (snapshotId : SnapshotId) (nowMs : Int) : Program SnapshotId :=
  if mt.pendingEmbeddings.isEmpty then pure 0
  else do
    let batch ← Prog.ofExcept mt.merged
    appendBatches site fmt ⟨policy, none, session, none⟩ [⟨batch, mt.pendingEmbeddings, none, true⟩]
      snapshotId nowMs

end MemTable
end MemTable
end AiLake
