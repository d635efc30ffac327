import AiLake.Hadoop
import AiLake.SchemaUpdate

/-! Data files and deletion vectors as the rewriting jobs see them. What the formats compute from a
file's contents alone is a `FileFormat`. -/
namespace AiLake

open StoreProgram

/-- Sizes, offsets, centroids and statistics of written files, the choice of `with_auto_index`, and
the texts that the Avro and JSON libraries accept. -/
structure FileFormat where
  size : DataFile → Nat
  indexOffset : DataFile → Nat
  indexLen : DataFile → Nat
  columnStats : DataFile → Option String
  centroid : List (List F32) → Centroid
  autoIndex : Nat → IndexKind
  ftsBuilds : RecordBatch → Bool
  bitmapLength : Bitmap → Nat
  deleteFileSize : EqualityDeleteAvro → Nat
  avroName : String → Bool
  parseF32 : String → Option F32
  parseF64 : String → Option F64
  jsonStrings : String → Option (List String)

inductive VectorMetric where
  | cosine
  | euclidean
  | dotProduct
  | normalizedCosine
  deriving DecidableEq, Repr

/-- `partitionValue` is the value that the entries get, after the partition transforms. -/
structure VectorStoragePolicy where
  columnName : String
  dim : Nat
  precision : VectorPrecision
  keepRaw : Bool
  embeddingModel : Option String
  partitionValue : Option String
  deriving DecidableEq, Repr

def VectorStoragePolicy.vectorColumn (p : VectorStoragePolicy) : VectorColumn :=
  ⟨p.columnName, p.dim, p.precision⟩

/- `ParquetVectorWriter::write_batch` checks the number of vectors; a file without raw vectors keeps
them only in its index. -/
def writeDataFile (policy : VectorStoragePolicy) (batch : RecordBatch)
    (embeddings : List (List F32)) (index : Option VectorIndex) (fts : Bool) :
    Except AilakeError DataFile :=
  if embeddings.length ≠ batch.numRows then
    .error (.dimensionMismatch batch.numRows embeddings.length)
  else .ok ⟨batch, if policy.keepRaw then embeddings else [], index, fts⟩

/- The Parquet reader returns no batch at all for a file without rows. -/
def DataFile.readParquet (f : DataFile) : Except AilakeError (RecordBatch × List (List F32)) :=
  if f.batch.rows.isEmpty then .error (.parquet "no batches in Parquet file")
  else .ok (f.batch, f.vectors)

def DataFile.verifyIntegrity (f : DataFile) : Except AilakeError Unit :=
  match f.index with
  | none => .error (.parquet "file is not a valid AI-Lake file (no AILK trailer)")
  | some index =>
    if f.batch.numRows ≠ index.nodeCount then
      .error (.rowCountMismatch f.batch.numRows index.nodeCount)
    else .ok ()

def filterDeletedRows {α : Type} (batch : RecordBatch) (parallel : List α) (bitmap : Bitmap) :
    RecordBatch × List α :=
  if bitmap = ∅ then (batch, parallel)
  else
    let keep := (List.range batch.numRows).map fun i => !bitmap.hides i
    (batch.filterRows fun i _ => !bitmap.hides i,
      (parallel.zip keep).filterMap fun p => if p.2 then some p.1 else none)

section Read

variable (site : Site)

def getDataFile (path : String) : Program DataFile := do
  match ← getObject site path with
  | .dataFile f => pure f
  | _ => .fail (.parquet "not a Parquet file")

/- A range read of the blob that the manifest entry names. -/
def loadDeletionVector (dv : DeletionVector) : Program Bitmap := do
  match ← getObject site dv.path with
  | .puffin blobs =>
    match blobs.find? fun b => b.offset = dv.offset ∧ b.length = dv.length with
    | some b => pure b.bitmap
    | none => .fail .io
  | _ => .fail .io

/-- A file that is read for a rewrite: its entry, its object, and the rows and vectors that its
deletion vector leaves. -/
structure SourceRead where
  entry : DataFileEntry
  file : DataFile
  batch : RecordBatch
  vectors : List (List F32)

def readSource (entry : DataFileEntry) : Program SourceRead := do
  let file ← getDataFile site entry.path
  let pair ← Prog.ofExcept file.readParquet
  match entry.deletionVector with
  | none => pure ⟨entry, file, pair.1, pair.2⟩
  | some dv => do
    let bitmap ← loadDeletionVector site dv
    let pair := filterDeletedRows pair.1 pair.2 bitmap
    pure ⟨entry, file, pair.1, pair.2⟩

/- The reads run concurrently in the source; none of them writes. -/
def readFilesParallel : List DataFileEntry → Program (List SourceRead)
  | [] => pure []
  | entry :: rest => do
    let read ← readSource site entry
    let reads ← readFilesParallel rest
    pure (read :: reads)

end Read

/-- The batches after one another, under the schema of the first. -/
def mergeReads (reads : List SourceRead) : Except AilakeError (RecordBatch × List (List F32)) :=
  match reads with
  | [] => .error (.catalog "no files provided")
  | first :: _ =>
    match concatBatches first.batch.schema (reads.map (·.batch)) with
    | none => .error (.arrow "schemas do not match")
    | some batch => .ok (batch, reads.flatMap (·.vectors))

/-- `merge_batch_ids`: the keys of all sources, each once, as a JSON array. -/
def mergeBatchIds (fmt : FileFormat) (sources : List DataFileEntry) : Option String :=
  let ids := (sources.flatMap (·.batchIds fmt.jsonStrings)).eraseDups
  if ids.isEmpty then none else some ("[" ++ ",".intercalate (ids.map jsonString) ++ "]")

theorem nodup_eraseDups {α : Type} [DecidableEq α] (l : List α) : l.eraseDups.Nodup := by
  -- The recursion is on the filtered rest, which is no longer than the rest.
  induction hn : l.length using Nat.strong_induction_on generalizing l with
  | _ n ih =>
    subst hn
    cases l with
    | nil => simp
    | cons a rest =>
      rw [List.eraseDups_cons,List.nodup_cons]
      refine ⟨by simp [List.mem_eraseDups], ih _ ?_ _ rfl⟩
      have hle := List.length_filter_le (fun b => !b == a) rest
      simp only [List.length_cons]
      omega

def minFirstRowId (sources : List DataFileEntry) : Option Int :=
  (sources.filterMap (·.firstRowId)).min?

end AiLake
