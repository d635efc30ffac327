import AiLake.Provider
import Mathlib.Algebra.Group.Int.Defs
import Mathlib.Algebra.Group.Nat.Defs

/-! Manifest files and lists as the Avro values that are written and read back, above the bytes of
the container. -/
namespace AiLake

/-- A partition value as its `["null", T]` slot holds it. -/
inductive PartitionDatum where
  | string (s : String)
  | int (n : Int)
  | long (n : Int)
  deriving DecidableEq, Repr

def PartitionDatum.text : PartitionDatum → String
  | .string s => s
  | .int n | .long n => toString n

/- `str::parse` for signed integers of the given width. -/
def parseDigits : List Char → Option Nat
  | [] => none
  | cs => if cs.all Char.isDigit then some (cs.foldl (fun n c => 10 * n + (c.toNat - '0'.toNat)) 0)
    else none

def parseSigned (bits : Nat) (s : String) : Option Int :=
  let value : Option Int := match s.toList with
    | '-' :: cs => (parseDigits cs).map fun n => -(n : Int)
    | '+' :: cs => (parseDigits cs).map fun n => (n : Int)
    | cs => (parseDigits cs).map fun n => (n : Int)
  value.filter fun n => -2 ^ (bits - 1) ≤ n ∧ n < 2 ^ (bits - 1)

/- `str::parse::<u64>`. -/
def parseU64 (s : String) : Option Nat :=
  let value := match s.toList with
    | '+' :: cs => parseDigits cs
    | cs => parseDigits cs
  value.filter fun n => n < 2 ^ 64

theorem parseDigits_toDigits (n : Nat) : parseDigits (Nat.toDigits 10 n) = some n := by
  have hdigits : (Nat.toDigits 10 n).all Char.isDigit = true :=
    List.all_eq_true.2 fun c hc => Nat.isDigit_of_mem_toDigits (by decide) (by decide) hc
  cases h : Nat.toDigits 10 n with
  | nil => exact absurd h Nat.toDigits_ne_nil
  | cons c rest =>
    rw [h] at hdigits
    rw [parseDigits,if_pos hdigits,← Nat.ofDigitChars_eq_foldl,← h,
      Nat.ofDigitChars_ten_toDigits]
    simp

def unitSeparator : Char := '\x1f'

def splitPartitionValue (raw : String) : List String :=
  (raw.toList.splitOn unitSeparator).map String.ofList

def joinPartitionValues (vals : List String) : String :=
  (String.singleton unitSeparator).intercalate vals

/- `encode_partition_value`: an integer that does not parse becomes null. -/
def encodePartitionValue (field : PartitionField) : Option String → Option PartitionDatum
  | none => none
  | some v =>
    if field.sourceType = "int" ∨ field.sourceType = "integer" then
      (parseSigned 32 v).map .int
    else if field.sourceType = "long" then (parseSigned 64 v).map .long
    else some (.string v)

def partitionRecord (spec : Option PartitionSpec) (value : Option String) :
    List (Option PartitionDatum) :=
  match spec with
  | none => []
  | some spec =>
    let parts := splitPartitionValue (value.getD "")
    spec.fields.zipIdx.map fun p => encodePartitionValue p.1 ((parts[p.2]?).filter (· ≠ ""))

def readPartitionRecord (record : List (Option PartitionDatum)) : Option String :=
  match record.filterMap fun d => d.map PartitionDatum.text with
  | [] => none
  | [v] => some v
  | vals => some (joinPartitionValues vals)

/-- The exponent of a finite float is not all ones. -/
def F32.isFinite (x : F32) : Bool := x.extractLsb' 23 8 ≠ 255#8

def sanitizeRadius (radius : Option F32) : Option F32 := radius.filter F32.isFinite

/-- The extension fields, kept as JSON in `key_metadata`. -/
structure AilakeEntryExt where
  centroidB64 : Option String
  radius : Option F32
  hnswOffset : Option Nat
  hnswLen : Option Nat
  vectorColumn : Option String
  vectorDim : Option Nat
  extraVectorIndexes : List ExtraVectorIndex
  indexStatus : IndexStatus
  indexError : Option String
  batchId : Option String
  embeddingModel : Option String
  partitionValue : Option String
  deletionVector : Option DeletionVector
  firstRowId : Option Int
  deriving DecidableEq, Repr

/-- An entry of a data manifest. `nativeDv` is only ever written by other engines. -/
structure ManifestEntry where
  sequenceNumber : Option Int
  filePath : String
  partition : List (Option PartitionDatum)
  recordCount : Nat
  fileSizeInBytes : Nat
  columnStats : Option String
  keyMetadata : Option AilakeEntryExt
  firstRowId : Option Int
  nativeDv : Option DeletionVector
  deriving DecidableEq, Repr

def manifestEntry (spec : Option PartitionSpec) (sequenceNumber : Int) (f : DataFileEntry) :
    ManifestEntry where
  sequenceNumber := some sequenceNumber
  filePath := f.path
  partition := partitionRecord spec f.partitionValue
  recordCount := f.recordCount
  fileSizeInBytes := f.fileSizeBytes
  columnStats := f.columnStats
  keyMetadata := some {
    centroidB64 := f.centroidB64
    radius := sanitizeRadius f.radius
    hnswOffset := f.hnswOffset
    hnswLen := f.hnswLen
    vectorColumn := f.vectorColumn
    vectorDim := f.vectorDim
    extraVectorIndexes :=
      f.extraVectorIndexes.map fun idx => { idx with radius := sanitizeRadius idx.radius }
    indexStatus := f.indexStatus
    indexError := f.indexError
    batchId := f.batchId
    embeddingModel := f.embeddingModel
    partitionValue := f.partitionValue
    deletionVector := f.deletionVector
    firstRowId := f.firstRowId }
  firstRowId := f.firstRowId
  nativeDv := none

def writeManifestFile (files : List DataFileEntry) (sequenceNumber : Int)
    (spec : Option PartitionSpec) : List ManifestEntry :=
  files.map (manifestEntry spec sequenceNumber)

def readManifestEntry (e : ManifestEntry) : DataFileEntry where
  path := e.filePath
  recordCount := e.recordCount
  fileSizeBytes := e.fileSizeInBytes
  centroidB64 := e.keyMetadata.bind (·.centroidB64)
  radius := e.keyMetadata.bind (·.radius)
  hnswOffset := e.keyMetadata.bind (·.hnswOffset)
  hnswLen := e.keyMetadata.bind (·.hnswLen)
  vectorColumn := e.keyMetadata.bind (·.vectorColumn)
  vectorDim := e.keyMetadata.bind (·.vectorDim)
  extraVectorIndexes := (e.keyMetadata.map (·.extraVectorIndexes)).getD []
  indexStatus := (e.keyMetadata.map (·.indexStatus)).getD .ready
  indexError := e.keyMetadata.bind (·.indexError)
  batchId := e.keyMetadata.bind (·.batchId)
  embeddingModel := e.keyMetadata.bind (·.embeddingModel)
  partitionValue := (readPartitionRecord e.partition).or (e.keyMetadata.bind (·.partitionValue))
  deletionVector := (e.keyMetadata.bind (·.deletionVector)).or e.nativeDv
  firstRowId := e.firstRowId.or (e.keyMetadata.bind (·.firstRowId))
  columnStats := none
  sequenceNumber := e.sequenceNumber.getD 0

def readManifestFile (entries : List ManifestEntry) : List DataFileEntry :=
  entries.map readManifestEntry

/-- An entry of a delete manifest; `content` is 2 for equality deletes. -/
structure DeleteManifestEntry where
  sequenceNumber : Option Int
  content : Int
  filePath : String
  recordCount : Nat
  fileSizeInBytes : Nat
  equalityIds : List Int
  deriving DecidableEq, Repr

def writeEqualityDeleteManifest (deletes : List EqualityDeleteFile) (sequenceNumber : Int) :
    List DeleteManifestEntry :=
  deletes.map fun d => {
    sequenceNumber := some sequenceNumber
    content := 2
    filePath := d.path
    recordCount := d.recordCount
    fileSizeInBytes := d.fileSizeBytes
    equalityIds := d.equalityIds }

def readEqualityDeleteManifest (entries : List DeleteManifestEntry) : List EqualityDeleteFile :=
  (entries.filter fun e => e.content = 2).map fun e => {
    path := e.filePath
    equalityIds := e.equalityIds
    recordCount := e.recordCount
    fileSizeBytes := e.fileSizeInBytes
    inlineValues := none
    sequenceNumber := e.sequenceNumber.getD 0 }

/-- A manifest list names manifests; `content` is 0 for data and 1 for deletes. -/
structure ManifestListEntry where
  manifestPath : String
  content : Int
  deriving DecidableEq, Repr

/-- The partition value a file has once its entry went through a manifest. -/
def storedPartitionValue (spec : Option PartitionSpec) (value : Option String) : Option String :=
  (readPartitionRecord (partitionRecord spec value)).or value

/-- What the entry of a committed file is read back as. -/
def DataFileEntry.stamped (spec : Option PartitionSpec) (sequenceNumber : Int)
    (f : DataFileEntry) : DataFileEntry :=
  { f with
    radius := sanitizeRadius f.radius
    extraVectorIndexes :=
      f.extraVectorIndexes.map fun idx => { idx with radius := sanitizeRadius idx.radius }
    partitionValue := storedPartitionValue spec f.partitionValue
    columnStats := none
    sequenceNumber := sequenceNumber }

def EqualityDeleteFile.stamped (sequenceNumber : Int) (d : EqualityDeleteFile) :
    EqualityDeleteFile :=
  { d with inlineValues := none, sequenceNumber := sequenceNumber }

theorem readManifestEntry_manifestEntry (spec : Option PartitionSpec) (sequenceNumber : Int)
    (f : DataFileEntry) :
    readManifestEntry (manifestEntry spec sequenceNumber f) = f.stamped spec sequenceNumber := by
  simp [readManifestEntry,manifestEntry,DataFileEntry.stamped,storedPartitionValue]

theorem readManifestFile_writeManifestFile (files : List DataFileEntry) (sequenceNumber : Int)
    (spec : Option PartitionSpec) :
    readManifestFile (writeManifestFile files sequenceNumber spec) =
      files.map (·.stamped spec sequenceNumber) := by
  simp [readManifestFile,writeManifestFile,readManifestEntry_manifestEntry]

theorem readEqualityDeleteManifest_write (deletes : List EqualityDeleteFile)
    (sequenceNumber : Int) :
    readEqualityDeleteManifest (writeEqualityDeleteManifest deletes sequenceNumber) =
      deletes.map (·.stamped sequenceNumber) := by
  rw [readEqualityDeleteManifest,List.filter_eq_self.2 (by simp [writeEqualityDeleteManifest]),
    writeEqualityDeleteManifest,List.map_map]
  rfl

end AiLake
