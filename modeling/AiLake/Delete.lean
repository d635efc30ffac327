import AiLake.Compaction

/-! `delete.rs`: deleting rows by position with a deletion vector, and by value with an equality
delete file. -/
namespace AiLake

open StoreProgram

variable (site : Site) (fmt : FileFormat)

def findTarget (filePath : String) (files : List DataFileEntry) : Option Nat :=
  files.findIdx? fun f => f.path = filePath ∨ filePath.toList <:+ f.path.toList

/- A deletion vector that cannot be loaded counts as empty. -/
def existingBitmap : Option DeletionVector → Program Bitmap
  | none => pure ∅
  | some dv => do
    match ← (loadDeletionVector site dv).attempt with
    | .ok bitmap => pure bitmap
    | .error _ => pure ∅

def insertRows (bitmap : Bitmap) (rowIds : List UInt32) : Bitmap :=
  rowIds.foldl (fun b id => insert id.toNat b) bitmap

def blobOffset : Nat := 4

def deletionVectorFor (table : TableMetadata) (snapshotId : SnapshotId) (bitmap : Bitmap) :
    DeletionVector where
  path := MetaPath.render (trimEndSlashes table.location) (.deletionVector snapshotId)
  offset := blobOffset
  length := fmt.bitmapLength bitmap
  cardinality := bitmap.card

def deleteRows (filePath : String) (rowIds : List UInt32) (snapshotId : SnapshotId)
    (nowMs : Int) : Program Unit :=
  if rowIds.isEmpty then pure ()
  else do
    let table ← loadTable site
    if table.formatVersion < 3 then
      .fail (.invalidArgument ("Deletion Vectors require Iceberg V3 table (got format-version=" ++
        toString table.formatVersion ++ "). Recreate the table with format_version=3."))
    else do
      let files ← listFiles site none
      match findTarget filePath files with
      | none => .fail (.catalog ("file '" ++ filePath ++ "' not found in current snapshot"))
      | some target => do
        let existing ← existingBitmap site (files[target]?.bind (·.deletionVector))
        let bitmap := insertRows existing rowIds
        let dv := deletionVectorFor fmt table snapshotId bitmap
        putObject site dv.path (.puffin [⟨dv.offset, dv.length, bitmap⟩])
        let patched := files.modify target fun f => { f with deletionVector := some dv }
        let _ ← commitSnapshot site
          (replaceSnapshot snapshotId table.currentSnapshotId patched) nowMs
        pure ()

inductive AvroType where
  | int
  | long
  | float
  | double
  | string
  deriving DecidableEq, Repr

def trimWhitespace (s : String) : String :=
  String.ofList ((s.toList.dropWhile Char.isWhitespace).reverse.dropWhile Char.isWhitespace).reverse

def avroType (icebergType : String) : AvroType :=
  match trimWhitespace icebergType with
  | "int" | "integer" => .int
  | "long" => .long
  | "float" => .float
  | "double" => .double
  | _ => .string

/- A value that does not parse is offered as a string, which the Avro writer refuses under a
numeric type. -/
def avroDeleteValue (type : AvroType) (value : String) : Option AvroValue :=
  match type with
  | .int => (parseSigned 32 value).map .int
  | .long => (parseSigned 64 value).map .long
  | .float => (fmt.parseF32 value).map .float
  | .double => (fmt.parseF64 value).map .double
  | .string => some (.string value)

def deleteRecord (column : String) (value : AvroValue) : List (String × AvroValue) :=
  [(column, value)]

def writeEqualityDeleteAvro (column icebergType : String) (values : List String) :
    Except AilakeError EqualityDeleteAvro :=
  if fmt.avroName column then
    match values.mapM (avroDeleteValue fmt (avroType icebergType)) with
    | none => .error (.catalog "value does not match schema")
    | some vals => .ok {
        columns := [column]
        records := vals.map (deleteRecord column)
        named := by simp
        aligned := by
          intro r hr
          obtain ⟨v, -, rfl⟩ := List.mem_map.1 hr
          rfl }
  else .error (.catalog "invalid name")

def equalityDeleteFile (column : String) (values : List String) (fieldId : Int)
    (payload : EqualityDeleteAvro) (snapshotId : SnapshotId) : EqualityDeleteFile where
  path := "metadata/" ++ MetaPath.name (.equalityDelete snapshotId)
  equalityIds := [fieldId]
  recordCount := values.length
  fileSizeBytes := fmt.deleteFileSize payload
  inlineValues := some (column, values)
  sequenceNumber := 0

def deleteSnapshot (snapshotId : SnapshotId) (parent : Option SnapshotId)
    (deleteFile : EqualityDeleteFile) : NewSnapshot where
  snapshotId := snapshotId
  parentSnapshotId := parent
  files := []
  operation := .delete
  icebergSchema := none
  extraProperties := []
  bloomFilters := []
  equalityDeleteFiles := [deleteFile]

def deleteWhere (column : String) (values : List String) (snapshotId : SnapshotId)
    (nowMs : Int) : Program Unit :=
  if values.isEmpty then pure ()
  else do
    let table ← loadTable site
    let field := table.schemaFields.find? fun sf => sf.name = column
    let fieldId := (field.map (·.id)).getD 0
    let icebergType := (field.map (·.icebergType)).getD "string"
    let payload ← Prog.ofExcept (writeEqualityDeleteAvro fmt column icebergType values)
    putObject site (MetaPath.render (trimEndSlashes table.location) (.equalityDelete snapshotId))
      (.equalityDelete payload)
    let _ ← commitSnapshot site (deleteSnapshot snapshotId table.currentSnapshotId
      (equalityDeleteFile fmt column values fieldId payload snapshotId)) nowMs
    pure ()

end AiLake
