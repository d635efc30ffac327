import AiLake.Arrow

/-! The records that the catalog hands to its callers, and the requests they hand back. Nothing
here touches the store. -/
namespace AiLake

abbrev SnapshotId := Int

/-- String-keyed tables of metadata.json; a later insert replaces an earlier one. -/
abbrev Properties := List (String × String)

def Properties.insert (ps : Properties) (key value : String) : Properties :=
  (key, value) :: ps.filter fun p => p.1 ≠ key

def Properties.get (ps : Properties) (key : String) : Option String :=
  (ps.find? fun p => p.1 = key).map Prod.snd

def Properties.insertAll (ps : Properties) : List (String × String) → Properties
  | [] => ps
  | (key, value) :: rest => (ps.insert key value).insertAll rest

inductive AilakeError where
  | catalog (message : String)
  | store
  | invalidArgument (message : String)
  | parquet (message : String)
  | arrow (message : String)
  | rowCountMismatch (parquet hnsw : Nat)
  | dimensionMismatch (expected actual : Nat)
  | modelMismatch (tableModel : String) (tableDim : Nat) (batchModel : String) (batchDim : Nat)
  | io
  | json
  | unsupportedFormatVersion (version : UInt16)
  | invalidAilakeMagic (found : List UInt8)
  | notAnAilakeFile
  | invalidCentroidLength (expectedDim : UInt32) (actual : Nat)
  | fts (message : String)
  deriving DecidableEq, Repr

theorem bind_eq_ok {ε α β : Type} {x : Except ε α} {f : α → Except ε β} {b : β} :
    (x >>= f) = .ok b ↔ ∃ a, x = .ok a ∧ f a = .ok b := by
  cases x <;> simp [Bind.bind,Except.bind]

inductive IndexStatus where
  | ready
  | indexing
  | failed
  deriving DecidableEq, Repr

structure DeletionVector where
  path : String
  offset : Nat
  length : Nat
  cardinality : Int
  deriving DecidableEq, Repr

structure ExtraVectorIndex where
  column : String
  dim : Nat
  hnswOffset : Nat
  hnswLen : Nat
  centroidB64 : Option String
  radius : Option F32
  deriving DecidableEq, Repr

structure DataFileEntry where
  path : String
  recordCount : Nat
  fileSizeBytes : Nat
  centroidB64 : Option String
  radius : Option F32
  hnswOffset : Option Nat
  hnswLen : Option Nat
  vectorColumn : Option String
  vectorDim : Option Nat
  extraVectorIndexes : List ExtraVectorIndex
  indexStatus : IndexStatus
  indexError : Option String
  batchId : Option String
  embeddingModel : Option String
  partitionValue : Option String
  deletionVector : Option DeletionVector
  firstRowId : Option Int
  columnStats : Option String
  sequenceNumber : Int
  deriving DecidableEq, Repr

def DataFileEntry.isForeign (e : DataFileEntry) : Bool := e.centroidB64.isNone

structure EqualityDeleteFile where
  path : String
  equalityIds : List Int
  recordCount : Nat
  fileSizeBytes : Nat
  inlineValues : Option (String × List String)
  sequenceNumber : Int
  deriving DecidableEq, Repr

/-- `serde_json::Value` where it stands for a column default. -/
inductive JsonValue where
  | null
  | bool (b : Bool)
  | int (n : Int)
  | float (x : F64)
  | str (s : String)
  | compound (text : String)
  deriving DecidableEq, Repr

structure SchemaField where
  id : Int
  name : String
  required : Bool
  icebergType : String
  initialDefault : Option JsonValue
  writeDefault : Option JsonValue
  deriving DecidableEq, Repr

structure PartitionField where
  sourceId : Int
  fieldId : Int
  name : String
  transform : String
  sourceType : String
  deriving DecidableEq, Repr

structure PartitionSpec where
  specId : Int
  fields : List PartitionField
  deriving DecidableEq, Repr

def PartitionSpec.isUnpartitioned (s : PartitionSpec) : Bool := s.fields.isEmpty

structure TableMetadata where
  formatVersion : Int
  location : String
  properties : Properties
  currentSnapshotId : Option SnapshotId
  currentStatisticsPath : Option String
  schemaFields : List SchemaField
  partitionSpec : Option PartitionSpec
  deriving DecidableEq, Repr

structure VectorIndexInfo where
  column : String
  dim : Nat
  hnswOffset : Nat
  hnswLen : Nat
  deriving DecidableEq, Repr

structure Centroid where
  encoded : String
  radius : F32
  deriving DecidableEq, Repr

def makeMultiColumnDataFileEntry (path : String) (recordCount fileSizeBytes : Nat)
    (primaryCentroid : Centroid) (primaryIndex : VectorIndexInfo)
    (extra : List ExtraVectorIndex) : DataFileEntry where
  path := path
  recordCount := recordCount
  fileSizeBytes := fileSizeBytes
  centroidB64 := some primaryCentroid.encoded
  radius := some primaryCentroid.radius
  hnswOffset := some primaryIndex.hnswOffset
  hnswLen := some primaryIndex.hnswLen
  vectorColumn := some primaryIndex.column
  vectorDim := some primaryIndex.dim
  extraVectorIndexes := extra
  indexStatus := .ready
  indexError := none
  batchId := none
  embeddingModel := none
  partitionValue := none
  deletionVector := none
  firstRowId := none
  columnStats := none
  sequenceNumber := 0

def makeDataFileEntry (path : String) (recordCount fileSizeBytes : Nat) (centroid : Centroid)
    (index : VectorIndexInfo) : DataFileEntry :=
  makeMultiColumnDataFileEntry path recordCount fileSizeBytes centroid index []

def makeDataFileEntryIndexing (path : String) (recordCount fileSizeBytes : Nat)
    (centroid : Centroid) (column : String) (dim : Nat) : DataFileEntry where
  path := path
  recordCount := recordCount
  fileSizeBytes := fileSizeBytes
  centroidB64 := some centroid.encoded
  radius := some centroid.radius
  hnswOffset := none
  hnswLen := none
  vectorColumn := some column
  vectorDim := some dim
  extraVectorIndexes := []
  indexStatus := .indexing
  indexError := none
  batchId := none
  embeddingModel := none
  partitionValue := none
  deletionVector := none
  firstRowId := none
  columnStats := none
  sequenceNumber := 0

/-- The idempotency keys of a file; `decode` reads a JSON array of strings. -/
def DataFileEntry.batchIds (decode : String → Option (List String)) (e : DataFileEntry) :
    List String :=
  match e.batchId with
  | none => []
  | some raw => (decode raw).getD [raw]

end AiLake
