import AiLake.Provider

/-! The table metadata that is kept as `vN.metadata.json`, and the pure part of a commit and of a
schema evolution on it. -/
namespace AiLake

mutual
inductive IcebergType where
  | primitive (name : String)
  | list (elementId : Int) (element : IcebergType) (elementRequired : Bool)
  | struct (fields : IcebergFields)
  | map (keyId : Int) (key : IcebergType) (valueId : Int) (value : IcebergType)
      (valueRequired : Bool)
  deriving DecidableEq, Repr

inductive IcebergFields where
  | nil
  | cons (id : Int) (name : String) (required : Bool) (type : IcebergType) (rest : IcebergFields)
  deriving DecidableEq, Repr
end

/- How `serde_json` writes a character inside a string. -/
def jsonChar (c : Char) : String :=
  match c.toNat with
  | 34 => "\\\""
  | 92 => "\\\\"
  | 8 => "\\b"
  | 9 => "\\t"
  | 10 => "\\n"
  | 12 => "\\f"
  | 13 => "\\r"
  | n => if n < 32 then "\\u00" ++ (if n < 16 then "0" else "1") ++
      String.singleton (Nat.digitChar (n % 16)) else String.singleton c

def jsonString (s : String) : String := "\"" ++ String.join (s.toList.map jsonChar) ++ "\""

/- The JSON text of a type; a primitive is its bare name here and a JSON string inside. -/
mutual
def IcebergType.json : IcebergType → String
  | .primitive name => jsonString name
  | .list id element required =>
    "\x7b\"element\":" ++ element.json ++ ",\"element-id\":" ++ toString id ++
      ",\"element-required\":" ++ toString required ++ ",\"type\":\"list\"\x7d"
  | .struct fields => "\x7b\"fields\":[" ++ fields.json ++ "],\"type\":\"struct\"\x7d"
  | .map keyId key valueId value required =>
    "\x7b\"key\":" ++ key.json ++ ",\"key-id\":" ++ toString keyId ++ ",\"type\":\"map\",\"value\":" ++
      value.json ++ ",\"value-id\":" ++ toString valueId ++ ",\"value-required\":" ++
      toString required ++ "\x7d"
def IcebergFields.json : IcebergFields → String
  | .nil => ""
  | .cons id name required type rest =>
    "\x7b\"id\":" ++ toString id ++ ",\"name\":" ++ jsonString name ++ ",\"required\":" ++
      toString required ++ ",\"type\":" ++ type.json ++ "\x7d" ++
      (match rest with
        | .nil => ""
        | _ => "," ++ rest.json)
end

def IcebergType.text : IcebergType → String
  | .primitive name => name
  | t => t.json

structure IcebergField where
  id : Int
  name : String
  required : Bool
  type : IcebergType
  initialDefault : Option JsonValue
  writeDefault : Option JsonValue
  doc : Option String
  deriving DecidableEq, Repr

structure IcebergSchema where
  schemaId : Int
  fields : List IcebergField
  deriving DecidableEq, Repr

structure SpecField where
  name : String
  transform : String
  sourceId : Int
  fieldId : Int
  deriving DecidableEq, Repr

structure SpecEntry where
  specId : Int
  fields : List SpecField
  deriving DecidableEq, Repr

structure IcebergSnapshot where
  snapshotId : SnapshotId
  parentSnapshotId : Option SnapshotId
  sequenceNumber : Int
  timestampMs : Int
  manifestList : String
  summary : Properties
  schemaId : Option Int
  deriving DecidableEq, Repr

structure StatisticsRef where
  snapshotId : SnapshotId
  statisticsPath : String
  deriving DecidableEq, Repr

structure IcebergMetadata where
  formatVersion : Int
  location : String
  lastSequenceNumber : Int
  nextRowId : Int
  lastUpdatedMs : Int
  lastColumnId : Int
  schemas : List IcebergSchema
  currentSchemaId : Int
  partitionSpecs : List SpecEntry
  defaultSpecId : Int
  properties : Properties
  currentSnapshotId : Option SnapshotId
  snapshots : List IcebergSnapshot
  statistics : List StatisticsRef
  partitionStatistics : List StatisticsRef
  deriving DecidableEq, Repr

namespace IcebergMetadata

def currentSchema? (m : IcebergMetadata) : Option IcebergSchema :=
  m.schemas.find? fun s => s.schemaId = m.currentSchemaId

def schemaFields (m : IcebergMetadata) : List SchemaField :=
  match m.currentSchema? with
  | none => []
  | some s => s.fields.map fun f => {
      id := f.id
      name := f.name
      required := f.required
      icebergType := f.type.text
      initialDefault := f.initialDefault.filter (· ≠ .null)
      writeDefault := f.writeDefault.filter (· ≠ .null) }

def partitionSpec (m : IcebergMetadata) : Option PartitionSpec :=
  match m.partitionSpecs.find? fun s => s.specId = m.defaultSpecId with
  | none => none
  | some s =>
    if s.fields.isEmpty then none
    else some {
      specId := s.specId
      fields := s.fields.map fun f => {
        sourceId := f.sourceId
        fieldId := f.fieldId
        name := f.name
        transform := f.transform
        sourceType :=
          ((m.schemaFields.find? fun sf => sf.id = f.sourceId).map (·.icebergType)).getD "string" } }

def toTableMetadata (m : IcebergMetadata) : TableMetadata where
  formatVersion := m.formatVersion
  location := m.location
  properties := m.properties
  currentSnapshotId := m.currentSnapshotId
  currentStatisticsPath := m.currentSnapshotId.bind fun id =>
    (m.statistics.reverse.find? fun s => s.snapshotId = id).map (·.statisticsPath)
  schemaFields := m.schemaFields
  partitionSpec := m.partitionSpec

end IcebergMetadata

structure PartitionDef where
  column : String
  transform : String
  columnType : String
  deriving DecidableEq, Repr

def plainField (id : Int) (name type : String) : IcebergField where
  id := id
  name := name
  required := false
  type := .primitive type
  initialDefault := none
  writeDefault := none
  doc := none

/- `IcebergMetadata::new`: the partition columns make up the bootstrap schema. The properties are
what the storage policy prints to. -/
def IcebergMetadata.new (location : String) (formatVersion : Nat) (partitionBy : Option String)
    (partitionColumnType : Option String) (partitionFields : List PartitionDef)
    (properties : Properties) (nowMs : Int) : IcebergMetadata :=
  let defs := if partitionFields.isEmpty then
      partitionBy.toList.map fun col => ⟨col, "identity", partitionColumnType.getD "string"⟩
    else partitionFields
  { formatVersion := max formatVersion 2
    location := location
    lastSequenceNumber := 0
    nextRowId := 0
    lastUpdatedMs := nowMs
    lastColumnId := defs.length
    schemas := [⟨0, defs.zipIdx.map fun p => plainField (p.2 + 1) p.1.column p.1.columnType⟩]
    currentSchemaId := 0
    partitionSpecs := ⟨0, []⟩ :: if defs.isEmpty then [] else
      [⟨1, defs.zipIdx.map fun p => ⟨p.1.column, p.1.transform, p.2 + 1, 1000 + p.2⟩⟩]
    defaultSpecId := if defs.isEmpty then 0 else 1
    properties := properties
    currentSnapshotId := none
    snapshots := []
    statistics := []
    partitionStatistics := [] }

structure IcebergSchemaUpdate where
  fields : List IcebergField
  lastColumnId : Int
  nameMappingJson : String
  deriving DecidableEq, Repr

inductive SnapshotOperation where
  | append
  | overwrite
  | delete
  | replace
  deriving DecidableEq, Repr

/-- Append and Delete keep the manifests of the previous snapshot. -/
def SnapshotOperation.inherits : SnapshotOperation → Bool
  | .append | .delete => true
  | .overwrite | .replace => false

def SnapshotOperation.lowercase : SnapshotOperation → String
  | .append => "append"
  | .overwrite => "overwrite"
  | .delete => "delete"
  | .replace => "replace"

structure NewSnapshot where
  snapshotId : SnapshotId
  parentSnapshotId : Option SnapshotId
  files : List DataFileEntry
  operation : SnapshotOperation
  icebergSchema : Option IcebergSchemaUpdate
  extraProperties : List (String × String)
  bloomFilters : List (String × List UInt8)
  equalityDeleteFiles : List EqualityDeleteFile
  deriving DecidableEq, Repr

structure SchemaPatch where
  newSchemaFields : List IcebergField
  lastColumnId : Int
  nameMappingJson : String
  remappedPartitionSpecs : List SpecEntry
  deriving DecidableEq, Repr

structure CommitArtifacts where
  snapshot : IcebergSnapshot
  nextRowId : Int
  lastSequenceNumber : Int
  lastUpdatedMs : Int
  schemaPatch : Option SchemaPatch
  extraProperties : List (String × String)
  statistics : Option StatisticsRef
  partitionStatistics : Option StatisticsRef
  deriving DecidableEq, Repr

/- Partition fields follow their column to the id it has in the committed schema; of two fields of
one name the later one counts. -/
def remapSpecs (specs : List SpecEntry) (fields : List IcebergField) : List SpecEntry :=
  specs.map fun s => { s with
    fields := s.fields.map fun pf =>
      match fields.reverse.find? fun f => f.name = pf.name with
      | some f => { pf with sourceId := f.id }
      | none => pf }

def schemaPatch (specs : List SpecEntry) (update : IcebergSchemaUpdate) : SchemaPatch where
  newSchemaFields := update.fields
  lastColumnId := update.lastColumnId
  nameMappingJson := update.nameMappingJson
  remappedPartitionSpecs := remapSpecs specs update.fields

namespace IcebergMetadata

def patchFirstSchema (fields : List IcebergField) : List IcebergSchema → List IcebergSchema
  | [] => []
  | s :: rest => { s with fields := fields } :: rest

def applySchemaPatch (m : IcebergMetadata) : Option SchemaPatch → IcebergMetadata
  | none => m
  | some patch => { m with
      partitionSpecs := patch.remappedPartitionSpecs
      schemas := patchFirstSchema patch.newSchemaFields m.schemas
      lastColumnId := patch.lastColumnId
      properties := m.properties.insert "schema.name-mapping.default" patch.nameMappingJson }

def applyCommit (m : IcebergMetadata) (a : CommitArtifacts) : IcebergMetadata :=
  let pushed : IcebergMetadata := { m with
    lastSequenceNumber := a.lastSequenceNumber
    lastUpdatedMs := a.lastUpdatedMs
    currentSnapshotId := some a.snapshot.snapshotId
    nextRowId := if 3 ≤ m.formatVersion then a.nextRowId else m.nextRowId
    snapshots := m.snapshots ++ [a.snapshot] }
  let patched := pushed.applySchemaPatch a.schemaPatch
  { patched with
    properties := patched.properties.insertAll a.extraProperties
    statistics := patched.statistics ++ a.statistics.toList
    partitionStatistics := patched.partitionStatistics ++ a.partitionStatistics.toList }

variable (m : IcebergMetadata) (a : CommitArtifacts)

@[simp] theorem snapshots_applyCommit :
    (m.applyCommit a).snapshots = m.snapshots ++ [a.snapshot] := by
  cases h : a.schemaPatch <;> simp [applyCommit,applySchemaPatch,h]

@[simp] theorem currentSnapshotId_applyCommit :
    (m.applyCommit a).currentSnapshotId = some a.snapshot.snapshotId := by
  cases h : a.schemaPatch <;> simp [applyCommit,applySchemaPatch,h]

@[simp] theorem formatVersion_applyCommit :
    (m.applyCommit a).formatVersion = m.formatVersion := by
  cases h : a.schemaPatch <;> simp [applyCommit,applySchemaPatch,h]

@[simp] theorem location_applyCommit : (m.applyCommit a).location = m.location := by
  cases h : a.schemaPatch <;> simp [applyCommit,applySchemaPatch,h]

@[simp] theorem lastSequenceNumber_applyCommit :
    (m.applyCommit a).lastSequenceNumber = a.lastSequenceNumber := by
  cases h : a.schemaPatch <;> simp [applyCommit,applySchemaPatch,h]

@[simp] theorem currentSchemaId_applyCommit :
    (m.applyCommit a).currentSchemaId = m.currentSchemaId := by
  cases h : a.schemaPatch <;> simp [applyCommit,applySchemaPatch,h]

theorem schemas_applyCommit : (m.applyCommit a).schemas = match a.schemaPatch with
    | none => m.schemas
    | some patch => patchFirstSchema patch.newSchemaFields m.schemas := by
  cases h : a.schemaPatch <;> simp [applyCommit,applySchemaPatch,h]

theorem lastColumnId_applyCommit : (m.applyCommit a).lastColumnId = match a.schemaPatch with
    | none => m.lastColumnId
    | some patch => patch.lastColumnId := by
  cases h : a.schemaPatch <;> simp [applyCommit,applySchemaPatch,h]

@[simp] theorem nextRowId_applyCommit : (m.applyCommit a).nextRowId =
    if 3 ≤ m.formatVersion then a.nextRowId else m.nextRowId := by
  cases h : a.schemaPatch <;> simp [applyCommit,applySchemaPatch,h]

end IcebergMetadata

structure AddColumnRequest where
  name : String
  icebergType : String
  required : Bool
  initialDefault : Option JsonValue
  writeDefault : Option JsonValue
  doc : Option String
  deriving DecidableEq, Repr

structure RenameColumnRequest where
  oldName : String
  newName : String
  deriving DecidableEq, Repr

structure SchemaEvolution where
  renames : List RenameColumnRequest
  adds : List AddColumnRequest
  extraProperties : List (String × String)
  deriving DecidableEq, Repr

def renameField (rename : RenameColumnRequest) (f : IcebergField) : IcebergField :=
  if f.name = rename.oldName then { f with name := rename.newName } else f

def renameFields (renames : List RenameColumnRequest) (fields : List IcebergField) :
    List IcebergField :=
  renames.foldl (fun fields rename => fields.map (renameField rename)) fields

def addedField (id : Int) (add : AddColumnRequest) : IcebergField where
  id := id
  name := add.name
  required := add.required
  type := .primitive add.icebergType
  initialDefault := add.initialDefault.or add.writeDefault
  writeDefault := add.writeDefault
  doc := add.doc

/- New columns take the ids after `lastColumnId`, in order. -/
def addedFields (lastColumnId : Int) (adds : List AddColumnRequest) : List IcebergField :=
  adds.zipIdx.map fun p => addedField (lastColumnId + p.2 + 1) p.1

/-- The metadata that `evolve_schema` saves; `none` when the current schema is missing. -/
def IcebergMetadata.evolved (m : IcebergMetadata) (e : SchemaEvolution) (nowMs : Int) :
    Option IcebergMetadata :=
  m.currentSchema?.map fun current => { m with
    schemas := m.schemas ++ [{
      schemaId := m.currentSchemaId + 1
      fields := renameFields e.renames current.fields ++ addedFields m.lastColumnId e.adds }]
    currentSchemaId := m.currentSchemaId + 1
    lastColumnId := m.lastColumnId + e.adds.length
    lastUpdatedMs := nowMs
    properties := m.properties.insertAll e.extraProperties }

end AiLake
