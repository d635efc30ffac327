import AiLake.StoreProgram.Calls
import AiLake.Writer

/-! The write paths of `TableWriter`, down to the vectors that the file writer gets. A call changes
the session and may fail; the answers of store and catalog are inputs. -/
namespace AiLake

open StoreProgram

/-! The file writer. -/

/-- A component as the Parquet column keeps it. -/
inductive StoredNumber where
  | f32 (x : F32)
  | f16 (x : BitVec 16)
  | i8 (x : BitVec 8)
  deriving DecidableEq, Repr

def StoredNumber.isFinite : StoredNumber → Bool
  | .f32 x => F32.isFinite x
  | .f16 x => x.extractLsb' 10 5 ≠ 31#5
  | .i8 _ => true

/-- `f16::from_f32`, and the byte that a component is scaled to with its vector. -/
structure Quantizer where
  toF16 : F32 → BitVec 16
  toI8 : List F32 → F32 → BitVec 8

def Quantizer.stored (q : Quantizer) : VectorPrecision → List F32 → List StoredNumber
  | .f32, v => v.map .f32
  | .f16, v => v.map fun x => .f16 (q.toF16 x)
  | .i8, v => v.map fun x => .i8 (q.toI8 v x)

/- `chunks_exact`: what is left over at the end is dropped. -/
def chunksExact {α : Type} (n : Nat) (l : List α) : List (List α) :=
  (List.range (l.length / n)).map fun i => (l.drop (i * n)).take n

structure VectorColumnBatch where
  policy : VectorStoragePolicy
  embeddings : List (List F32)
  deriving DecidableEq

/- `ParquetVectorWriter::write_batch`: the column of raw vectors, if any. All components go into one
buffer, cut up again by the dimension; a dimension of 0 panics. -/
def writeParquet (q : Quantizer) (batch : RecordBatch) (c : VectorColumnBatch) :
    Except AilakeError (Option (List (List StoredNumber))) :=
  if c.embeddings.length ≠ batch.numRows then
    .error (.dimensionMismatch (batch.numRows % 2 ^ 32) (c.embeddings.length % 2 ^ 32))
  else if !c.policy.keepRaw then .ok none
  else if c.policy.dim = 0 then .error (.parquet "chunk size must be non-zero")
  else
    let raw := chunksExact c.policy.dim (c.embeddings.flatMap (q.stored c.policy.precision))
    if raw.length ≠ batch.numRows then
      .error (.parquet "all columns in a record batch must have the same length")
    else .ok (some raw)

/-- A data file: the raw vectors of its primary column, and the columns that its index sections are
built from, now or in the background. -/
structure VectorFile where
  recordCount : Nat
  raw : Option (List (List StoredNumber))
  columns : List VectorColumnBatch
  index : Option IndexKind
  fts : Bool
  deriving DecidableEq

structure IvfPqConfig where
  nlist : Nat
  nprobe : Nat
  pqM : Nat
  pqK : Nat
  maxIter : Nat
  residual : Bool
  deriving DecidableEq, Repr

/-- What the numeric code, the indexes and the file format make of the vectors. Training and
building may fail, or panic, on any input. -/
structure VectorEngine where
  quantizer : Quantizer
  trains : IvfPqConfig → List (List F32) → Bool
  builds : IndexKind → VectorColumnBatch → Bool
  ftsBuilds : RecordBatch → Bool
  readsBack : VectorFile → Bool
  size : VectorFile → Nat
  indexOffset : VectorFile → Nat → Nat
  indexLen : VectorFile → Nat → Nat
  columnStats : VectorFile → Option String
  centroid : VectorStoragePolicy → List (List F32) → Centroid
  bloom : String → RecordBatch → Option (List UInt8)
  decodeKeys : String → Option (List String)
  recommendIvfPq : Nat → Bool
  forDataset : Nat → Nat → IvfPqConfig

section FileWriter

variable (engine : VectorEngine) (batch : RecordBatch)

def writeMulti (kind : IndexKind) (fts : Option FtsConfig) (columns : List VectorColumnBatch) :
    Except AilakeError VectorFile :=
  match columns with
  | [] => .error (.invalidArgument "write_multi requires at least one vector column")
  | primary :: _ =>
    match writeParquet engine.quantizer batch primary with
    | .error e => .error e
    | .ok raw =>
      if columns.all (engine.builds kind) then
        .ok ⟨batch.numRows, raw, columns, some kind, fts.isSome && engine.ftsBuilds batch⟩
      else .error (.catalog "the index could not be built")

/-- `write_parquet_only` for the first of the columns; the others wait for the background job. -/
def writeParquetOnly (primary : VectorColumnBatch) (rest : List VectorColumnBatch) :
    Except AilakeError VectorFile :=
  match writeParquet engine.quantizer batch primary with
  | .error e => .error e
  | .ok raw => .ok ⟨batch.numRows, raw, primary :: rest, none, false⟩

end FileWriter

/-! The table writer. -/

def metricStr : VectorMetric → String
  | .cosine => "cosine"
  | .euclidean => "euclidean"
  | .dotProduct => "dotproduct"
  | .normalizedCosine => "normalized_cosine"

inductive VectorModality where
  | text
  | image
  | audio
  | video
  deriving DecidableEq, Repr

def VectorModality.asStr : VectorModality → String
  | .text => "text"
  | .image => "image"
  | .audio => "audio"
  | .video => "video"

structure ColumnPolicy extends VectorStoragePolicy where
  metric : VectorMetric
  modality : Option VectorModality
  deriving DecidableEq, Repr

structure MultiVectorBatch where
  policy : ColumnPolicy
  embeddings : List (List F32)

def MultiVectorBatch.column (c : MultiVectorBatch) : VectorColumnBatch :=
  ⟨c.policy.toVectorStoragePolicy, c.embeddings⟩

structure VectorWriter extends TableWriter where
  bm25TextColumn : Option String
  ivfResidual : Bool
  supportsInPlaceRewrite : Bool

/-- What a writer keeps between its calls; every pending entry comes with the file it is for. -/
structure WriteSession where
  partCounter : Nat
  pendingFiles : List (DataFileEntry × VectorFile)
  capturedSchema : Option (List Field)
  extraVecPolicies : List ColumnPolicy
  codebookTrained : Bool
  pendingBlooms : List (String × List UInt8)
  deriving DecidableEq

def WriteSession.new : WriteSession := ⟨0, [], none, [], false, []⟩

/-- How the store and the catalog answer during one call. -/
structure Answers where
  listing : Except AilakeError (List DataFileEntry)
  fileStored : Bool
  jobCreated : Bool
  bm25Updated : Bool

abbrev WriteStep := Call WriteSession AilakeError

section Steps

variable (writer : VectorWriter) (engine : VectorEngine) (answers : Answers)

def ensureDeferredSupported : WriteStep Unit :=
  if writer.supportsInPlaceRewrite then pure ()
  else throw (.catalog ("deferred writes are not supported with this catalog backend: the " ++
    "background index build patches the data file in place at its committed path, which this " ++
    "catalog cannot re-register — use a blocking write"))

def captureSchema (batch : RecordBatch) : WriteStep PUnit :=
  modify fun s => { s with capturedSchema := some (mergeSchema s.capturedSchema batch.schema) }

def captureExtraPolicies (columns : List MultiVectorBatch) : WriteStep PUnit :=
  modify fun s =>
    if s.extraVecPolicies.isEmpty ∧ 1 < columns.length then
      { s with extraVecPolicies := (columns.drop 1).map (·.policy) }
    else s

def nextPartPath : WriteStep String :=
  modifyGet fun s => (writer.partPath s.partCounter, { s with partCounter := s.partCounter + 1 })

def putFile : WriteStep Unit := if answers.fileStored then pure () else throw .store

def createJob : WriteStep Unit := if answers.jobCreated then pure () else throw .store

def stageFile (entry : DataFileEntry) (file : VectorFile) : WriteStep PUnit :=
  modify fun s => { s with pendingFiles := s.pendingFiles ++ [(entry, file)] }

def tagged (file : VectorFile) (entry : DataFileEntry) : DataFileEntry :=
  { entry with
    embeddingModel := writer.policy.embeddingModel
    partitionValue := writer.policy.partitionValue
    columnStats := engine.columnStats file }

def extraIndex (c : VectorColumnBatch) (offset len : Nat) : ExtraVectorIndex where
  column := c.policy.columnName
  dim := c.policy.dim
  hnswOffset := offset
  hnswLen := len
  centroidB64 := some (engine.centroid c.policy c.embeddings).encoded
  radius := some (engine.centroid c.policy c.embeddings).radius

def indexedEntry (path : String) (file : VectorFile) (primary : VectorColumnBatch)
    (rest : List VectorColumnBatch) : DataFileEntry :=
  makeMultiColumnDataFileEntry path primary.embeddings.length (engine.size file)
    (engine.centroid primary.policy primary.embeddings)
    ⟨primary.policy.columnName, primary.policy.dim, engine.indexOffset file 0,
      engine.indexLen file 0⟩
    (rest.zipIdx.map fun p =>
      extraIndex engine p.1 (engine.indexOffset file (p.2 + 1)) (engine.indexLen file (p.2 + 1)))

/-- The file is stored, its sections are read back for their offsets, and its entry is staged. -/
def storeIndexed (path : String) (file : VectorFile) (primary : VectorColumnBatch)
    (rest : List VectorColumnBatch) (batchId : Option String) : WriteStep PUnit := do
  putFile answers
  if engine.readsBack file then
    stageFile (tagged writer engine file
      { indexedEntry engine path file primary rest with batchId := batchId }) file
  else throw (.parquet "file is not a valid AI-Lake file (no AILK trailer)")

def indexingEntry (path : String) (file : VectorFile) (primary : VectorColumnBatch)
    (rest : List VectorColumnBatch) : DataFileEntry :=
  { makeDataFileEntryIndexing path primary.embeddings.length (engine.size file)
      (engine.centroid primary.policy primary.embeddings) primary.policy.columnName
      primary.policy.dim with
    extraVectorIndexes := rest.map fun c => extraIndex engine c 0 0 }

/- The entry is staged before the job is created: it stays when that fails. -/
def storeDeferred (path : String) (file : VectorFile) (primary : VectorColumnBatch)
    (rest : List VectorColumnBatch) : WriteStep Unit := do
  putFile answers
  stageFile (tagged writer engine file (indexingEntry engine path file primary rest)) file
  createJob answers

def updateBm25 (batch : RecordBatch) (path : String) : WriteStep PUnit :=
  match writer.bm25TextColumn with
  | none => pure ()
  | some column =>
    if answers.bm25Updated then
      match engine.bloom column batch with
      | some bloom => modify fun s => { s with pendingBlooms := s.pendingBlooms ++ [(path, bloom)] }
      | none => pure ()
    else throw .store

def trainCodebook (config : IvfPqConfig) (embeddings : List (List F32)) : WriteStep PUnit := do
  let s ← get
  if s.codebookTrained then pure ()
  else if engine.trains config embeddings then modify fun s => { s with codebookTrained := true }
  else throw (.catalog "IVF-PQ training requires at least 1 vector")

def validateColumns : List MultiVectorBatch → Except AilakeError Unit
  | [] => .ok ()
  | c :: rest =>
    match validateEmbeddingDim c.policy.toVectorStoragePolicy c.embeddings with
    | .error e => .error e
    | .ok _ => validateColumns rest

variable (batch : RecordBatch) (embeddings : List (List F32))

def writeBatchWithId (batchId : Option String) : WriteStep PUnit := do
  Call.ofExcept (validateEmbeddingDim writer.policy embeddings)
  captureSchema batch
  let path ← nextPartPath writer
  let file ← Call.ofExcept
    (writeMulti engine batch .hnsw writer.fts [⟨writer.policy, embeddings⟩])
  storeIndexed writer engine answers path file ⟨writer.policy, embeddings⟩ [] batchId
  updateBm25 writer engine answers batch path

def writeBatchPlain : WriteStep PUnit :=
  writeBatchWithId writer engine answers batch embeddings none

def alreadyWritten (batchId : String) (existing : List DataFileEntry) : Bool :=
  existing.any fun f => (f.batchIds engine.decodeKeys).any fun id => id = batchId

def writeBatchIdempotent (batchId : String) : WriteStep PUnit := do
  let existing ← Call.ofExcept answers.listing
  if alreadyWritten engine batchId existing then pure ()
  else writeBatchWithId writer engine answers batch embeddings (some batchId)

def writeBatchDeferred : WriteStep PUnit := do
  ensureDeferredSupported writer
  Call.ofExcept (validateEmbeddingDim writer.policy embeddings)
  captureSchema batch
  let path ← nextPartPath writer
  let file ← Call.ofExcept (writeParquetOnly engine batch ⟨writer.policy, embeddings⟩ [])
  storeDeferred writer engine answers path file ⟨writer.policy, embeddings⟩ []
  updateBm25 writer engine answers batch path

/- No `validate_embedding_dim` here, and none in the other IVF-PQ path. -/
def writeBatchIvfPqDeferred : WriteStep PUnit := do
  ensureDeferredSupported writer
  captureSchema batch
  let path ← nextPartPath writer
  let file ← Call.ofExcept (writeParquetOnly engine batch ⟨writer.policy, embeddings⟩ [])
  storeDeferred writer engine answers path file ⟨writer.policy, embeddings⟩ []

def writeBatchIvfPq (config : IvfPqConfig) : WriteStep PUnit := do
  captureSchema batch
  let path ← nextPartPath writer
  trainCodebook engine config embeddings
  let file ← Call.ofExcept
    (writeMulti engine batch .ivfPq none [⟨writer.policy, embeddings⟩])
  storeIndexed writer engine answers path file ⟨writer.policy, embeddings⟩ [] none

def autoConfig : IvfPqConfig :=
  let config := engine.forDataset writer.policy.dim embeddings.length
  if writer.ivfResidual then { config with residual := true } else config

def writeBatchAuto : WriteStep PUnit :=
  if engine.recommendIvfPq embeddings.length then
    writeBatchIvfPq writer engine answers batch embeddings (autoConfig writer engine embeddings)
  else writeBatchPlain writer engine answers batch embeddings

def writeBatchAutoDeferred : WriteStep PUnit :=
  if engine.recommendIvfPq embeddings.length then
    writeBatchIvfPqDeferred writer engine answers batch embeddings
  else writeBatchDeferred writer engine answers batch embeddings

def writeBatchMulti (columns : List MultiVectorBatch) : WriteStep PUnit := do
  captureSchema batch
  captureExtraPolicies columns
  match columns with
  | [] => throw (.invalidArgument "write_batch_multi requires at least one column")
  | primary :: rest => do
    Call.ofExcept (validateColumns (primary :: rest))
    let path ← nextPartPath writer
    let file ← Call.ofExcept
      (writeMulti engine batch .hnsw writer.fts (primary.column :: rest.map (·.column)))
    storeIndexed writer engine answers path file primary.column (rest.map (·.column)) none

/- Nothing is validated; the vectors of the other columns are not even counted. -/
def writeBatchMultiDeferred (columns : List MultiVectorBatch) : WriteStep PUnit := do
  ensureDeferredSupported writer
  match columns with
  | [] => throw (.invalidArgument "write_batch_multi_deferred requires at least one column")
  | primary :: rest => do
    captureSchema batch
    captureExtraPolicies (primary :: rest)
    let path ← nextPartPath writer
    let file ← Call.ofExcept
      (writeParquetOnly engine batch primary.column (rest.map (·.column)))
    storeDeferred writer engine answers path file primary.column (rest.map (·.column))

end Steps

inductive WriteCall where
  | plain (batch : RecordBatch) (embeddings : List (List F32))
  | idempotent (batch : RecordBatch) (embeddings : List (List F32)) (batchId : String)
  | deferred (batch : RecordBatch) (embeddings : List (List F32))
  | ivfPq (batch : RecordBatch) (embeddings : List (List F32)) (config : IvfPqConfig)
  | ivfPqDeferred (batch : RecordBatch) (embeddings : List (List F32)) (config : IvfPqConfig)
  | auto (batch : RecordBatch) (embeddings : List (List F32))
  | autoDeferred (batch : RecordBatch) (embeddings : List (List F32))
  | multi (batch : RecordBatch) (columns : List MultiVectorBatch)
  | multiDeferred (batch : RecordBatch) (columns : List MultiVectorBatch)

section Session

variable (writer : VectorWriter) (engine : VectorEngine)

def WriteCall.step (answers : Answers) : WriteCall → WriteStep PUnit
  | plain batch embeddings => writeBatchPlain writer engine answers batch embeddings
  | idempotent batch embeddings batchId =>
    writeBatchIdempotent writer engine answers batch embeddings batchId
  | deferred batch embeddings => writeBatchDeferred writer engine answers batch embeddings
  | ivfPq batch embeddings config => writeBatchIvfPq writer engine answers batch embeddings config
  | ivfPqDeferred batch embeddings _ =>
    writeBatchIvfPqDeferred writer engine answers batch embeddings
  | auto batch embeddings => writeBatchAuto writer engine answers batch embeddings
  | autoDeferred batch embeddings => writeBatchAutoDeferred writer engine answers batch embeddings
  | multi batch columns => writeBatchMulti writer engine answers batch columns
  | multiDeferred batch columns => writeBatchMultiDeferred writer engine answers batch columns

def WriteSession.after (s : WriteSession) (calls : List (WriteCall × Answers)) : WriteSession :=
  calls.foldl (fun s c => ((c.1.step writer engine c.2).outcome s).2) s

def ColumnPolicy.properties (p : ColumnPolicy) : List (String × String) :=
  [("ailake.dim-" ++ p.columnName, toString p.dim),
    ("ailake.metric-" ++ p.columnName, metricStr p.metric)] ++
    (p.modality.toList.map fun modality => ("ailake.modality-" ++ p.columnName, modality.asStr))

def WriteSession.snapshot (s : WriteSession) (snapshotId : SnapshotId) : NewSnapshot where
  snapshotId := snapshotId
  parentSnapshotId := writer.parentSnapshotId
  files := s.pendingFiles.map Prod.fst
  operation := .append
  icebergSchema := s.capturedSchema.map fun schema =>
    arrowSchemaToIcebergUpdate schema writer.policy.vectorColumn
      (s.extraVecPolicies.map (·.vectorColumn))
  extraProperties :=
    (writer.fts.map (·.properties)).getD [] ++ s.extraVecPolicies.flatMap (·.properties)
  bloomFilters := s.pendingBlooms
  equalityDeleteFiles := []

/-- `commit`: without a file, nothing happens. -/
def WriteSession.commit (site : Site) (s : WriteSession) (snapshotId : SnapshotId) (nowMs : Int) :
    Program SnapshotId :=
  if s.pendingFiles.isEmpty then do
    let current ← currentSnapshotOrNone site
    pure (current.getD 0)
  else commitSnapshot site (s.snapshot writer snapshotId) nowMs

end Session
end AiLake
