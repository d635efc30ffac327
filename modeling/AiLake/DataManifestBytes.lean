import AiLake.ManifestBytes
import AiLake.PartitionValue

/-! The bytes of data manifests. Statistics and the partition record stand beside the JSON of
`key_metadata`; the reader prefers the record. -/
namespace AiLake.ManifestBytes

open Avro List

structure FieldStats where
  valueCount : Int
  nullCount : Int
  columnSize : Int
  lowerBoundB64 : Option String
  upperBoundB64 : Option String
  deriving DecidableEq, Repr

/-- JSON texts and base64, as other crates read and write them. -/
structure Codecs where
  stats : String → Option (List (Int32 × FieldStats))
  base64 : String → Option Bytes
  extToVec : AilakeEntryExt → Option Bytes
  extFromSlice : Bytes → Option AilakeEntryExt

structure Finite (e : AilakeEntryExt) : Prop where
  radius : ∀ r ∈ e.radius, F32.isFinite r = true
  extra : ∀ idx ∈ e.extraVectorIndexes, ∀ r ∈ idx.radius, F32.isFinite r = true

/-- The extension fields of a file, whatever the commit. -/
def extOf (f : DataFileEntry) : Option AilakeEntryExt := (manifestEntry none 0 f).keyMetadata

/-- JSON keeps extension fields when their floats are finite. -/
def Codecs.Keeps (codecs : Codecs) (f : DataFileEntry) : Prop :=
  ∀ e ∈ extOf f, Finite e → ∃ b, codecs.extToVec e = some b ∧ codecs.extFromSlice b = some e

/-! Statistics. -/

/- Iceberg maps with integer keys are arrays of records; an empty map is null. -/
def encodeIntMap {α : Type} (encode : α → Bytes) (entries : List (Int32 × α)) : Bytes :=
  if entries.isEmpty then encodeUnionNull
  else [encodeLong 1, encodeLong entries.length,
    entries.flatMap fun e => encodeInt e.1.toInt ++ encode e.2, encodeLong 0].flatten

def encodeIntLongMap (stats : Option (List (Int32 × FieldStats)))
    (getValue : FieldStats → Option Int) : Bytes :=
  encodeIntMap encodeLong ((stats.getD []).filterMap fun p => (getValue p.2).map fun v => (p.1, v))

/- A bound that is not base64 is left out. -/
def encodeIntBytesMap (base64 : String → Option Bytes) (stats : Option (List (Int32 × FieldStats)))
    (getBound : FieldStats → Option String) : Bytes :=
  encodeIntMap encodeBytesField
    ((stats.getD []).filterMap fun p => ((getBound p.2).bind base64).map fun b => (p.1, b))

/-! The partition record. -/

def partitionType (field : PartitionField) : Ty :=
  if field.sourceType = "int" ∨ field.sourceType = "integer" then .int
  else if field.sourceType = "long" then .long
  else .string

def partitionFields (spec : Option PartitionSpec) : Fields :=
  .ofList (((spec.map (·.fields)).getD []).map fun f => (f.name, optional (partitionType f)))

/- A malformed integer overwrites the index of its slot with the one of null. -/
def encodePartitionDatum : Option PartitionDatum → Bytes
  | none => encodeLong 0
  | some (.string s) => encodeLong 1 ++ encodeString s
  | some (.int n) | some (.long n) => encodeLong 1 ++ encodeLong n

/-! The writer. -/

def dataFileBytes (codecs : Codecs) (e : ManifestEntry) : Bytes :=
  let stats := e.columnStats.bind codecs.stats
  [encodeInt 0, encodeString e.filePath, encodeString "PARQUET",
    e.partition.flatMap encodePartitionDatum, encodeLong (asI64 e.recordCount),
    encodeLong (asI64 e.fileSizeInBytes), encodeIntLongMap stats (some ·.columnSize),
    encodeIntLongMap stats (some ·.valueCount), encodeIntLongMap stats (some ·.nullCount),
    encodeUnionNull, encodeIntBytesMap codecs.base64 stats (·.lowerBoundB64),
    encodeIntBytesMap codecs.base64 stats (·.upperBoundB64),
    match e.keyMetadata.bind codecs.extToVec with
    | some b => encodeUnionBytes 1 b
    | none => encodeUnionNull,
    encodeUnionNull, encodeUnionNull, encodeUnionNull,
    match e.firstRowId with
    | some id => encodeUnionLong 1 id
    | none => encodeUnionNull].flatten

def entryBytes (codecs : Codecs) (snapshotId sequenceNumber : Int) (e : ManifestEntry) : Bytes :=
  [encodeInt 1, encodeUnionLong 1 snapshotId, encodeUnionLong 1 sequenceNumber,
    encodeUnionLong 1 sequenceNumber, dataFileBytes codecs e].flatten

def writeManifestFile (schemas : SchemaTexts) (codecs : Codecs) (files : List DataFileEntry)
    (snapshotId sequenceNumber : Int) (tableSchemaJson partitionSpecJson : String)
    (formatVersion : Nat) (spec : Option PartitionSpec) : Bytes :=
  let extraMeta := [("schema", utf8 tableSchemaJson), ("partition-spec", utf8 partitionSpecJson),
    ("partition-spec-id", utf8 ((spec.map fun s => toString s.specId).getD "0")),
    ("format-version", utf8 (if formatVersion ≥ 3 then "3" else "2")), ("content", utf8 "data")]
  writeAvroContainer (schemas.text (manifestEntryType (partitionFields spec))) extraMeta
    ((AiLake.writeManifestFile files sequenceNumber spec).map
      (entryBytes codecs snapshotId sequenceNumber))

/-! The reader. -/

def plainDatum : Value → Option PartitionDatum
  | .string s => some (.string s)
  | .int n => some (.int n)
  | .long n => some (.long n)
  | _ => none

def datumOf : Value → Option PartitionDatum
  | .union index v => if 0 < index then plainDatum v else none
  | v => plainDatum v

def parseV3DeletionVector (file : List (String × Value)) : Option DeletionVector :=
  (fieldAs (behindUnion recordOf) file "deletion_vector").bind fun dv =>
    (fieldAs stringOf dv "path").bind fun path =>
      (fieldAs longOf dv "offset").bind fun offset =>
        (fieldAs longOf dv "length").map fun length => {
          path := path
          offset := asU64 offset
          length := asU64 length
          cardinality := (fieldAs longOf dv "cardinality").getD (-1) }

def parseV3FirstRowId (file : List (String × Value)) : Option Int :=
  fieldAs (behindUnion longOf) file "first_row_id"

/- Records without a path are passed over. Statistics are only written. -/
def readEntryValue (codecs : Codecs) (v : Value) : Option ManifestEntry :=
  (recordOf v).bind fun fields =>
    (fieldAs recordOf fields "data_file").bind fun file =>
      (fieldAs stringOf file "file_path").map fun path => {
        sequenceNumber := fieldAs (behindUnion longOf) fields "sequence_number"
        filePath := path
        partition := ((fieldAs recordOf file "partition").getD []).map fun p => datumOf p.2
        recordCount := ((fieldAs longOf file "record_count").map asU64).getD 0
        fileSizeInBytes := ((fieldAs longOf file "file_size_in_bytes").map asU64).getD 0
        columnStats := none
        keyMetadata := (fieldAs (behindUnion bytesOf) file "key_metadata").bind codecs.extFromSlice
        firstRowId := parseV3FirstRowId file
        nativeDv := parseV3DeletionVector file }

def readManifestFile (schemas : SchemaTexts) (codecs : Codecs) (data : Bytes) :
    Option (List DataFileEntry) :=
  (readContainer schemas.parse data).map fun values =>
    AiLake.readManifestFile (values.filterMap (readEntryValue codecs))

/-! What the pieces are read as. -/

def intMapValue {α : Type} (value : α → Value) (entries : List (Int32 × α)) : Value :=
  if entries.isEmpty then .union 0 .null
  else .union 1 (.array (entries.map fun e =>
    .record [("key", .int e.1.toInt), ("value", value e.2)]))

theorem reads_encodeIntMap {α : Type} {t : Ty} {encode : α → Bytes} {value : α → Value}
    (h : ∀ a, Reads t (encode a) (value a)) (entries : List (Int32 × α)) :
    Reads (intMap t) (encodeIntMap encode entries) (intMapValue value entries) := by
  by_cases hne : entries = []
  · subst hne
    exact reads_encodeUnionNull
  have hentry (e : Int32 × α) (_ : e ∈ entries) :
      Reads (.record (.ofList [("key", .int),("value", t)]))
        (encodeInt e.1.toInt ++ encode e.2)
        (.record [("key", .int e.1.toInt),("value", value e.2)]) := by
    have hrecord : Reads (.record (.ofList [("key", .int),("value", t)])) _
        (.record [("key", .int e.1.toInt),("value", value e.2)]) :=
      .record (.cons (reads_encodeInt (fitsInt_toInt e.1)) (.cons (h e.2) .nil))
    rwa [append_nil] at hrecord
  have hunion : Reads (intMap t) _ _ := .union_one (Reads.array hentry hne)
  have hempty : entries.isEmpty = false := by simpa using hne
  simpa [encodeIntMap,intMapValue,hempty,encodeLong,intMap,optional] using hunion

def datumValue : Option PartitionDatum → Value
  | none => .union 0 .null
  | some (.string s) => .union 1 (.string s)
  | some (.int n) => .union 1 (.int n)
  | some (.long n) => .union 1 (.long n)

@[simp] theorem datumOf_datumValue (d : Option PartitionDatum) : datumOf (datumValue d) = d := by
  match d with
  | none | some (.string _) | some (.int _) | some (.long _) => rfl

theorem fitsInt_of_parseSigned {s : String} {n : Int} (h : parseSigned 32 s = some n) :
    fitsInt n = true := by
  have hrange := (Option.filter_eq_some_iff.1 h).2
  simpa [fitsInt] using hrange

theorem reads_encodePartitionDatum (field : PartitionField) (v : Option String) :
    Reads (optional (partitionType field))
      (encodePartitionDatum (encodePartitionValue field v))
      (datumValue (encodePartitionValue field v)) := by
  cases v with
  | none => exact reads_encodeUnionNull
  | some s =>
    by_cases hint : field.sourceType = "int" ∨ field.sourceType = "integer"
    · simp only [encodePartitionValue,partitionType,if_pos hint]
      cases hn : parseSigned 32 s with
      | none => exact reads_encodeUnionNull
      | some n => exact .union_one (reads_encodeInt (fitsInt_of_parseSigned hn))
    · by_cases hlong : field.sourceType = "long"
      · simp only [encodePartitionValue,partitionType,if_neg hint,if_pos hlong]
        cases parseSigned 64 s with
        | none => exact reads_encodeUnionNull
        | some n => exact .union_one (reads_encodeLong n)
      · simp only [encodePartitionValue,partitionType,if_neg hint,if_neg hlong]
        exact .union_one (reads_encodeString s)

def partitionValues (spec : Option PartitionSpec) (v : Option String) : List (String × Value) :=
  (((spec.map (·.fields)).getD []).zip (partitionRecord spec v)).map fun p =>
    (p.1.name, datumValue p.2)

theorem reads_partitionRecord (spec : Option PartitionSpec) (v : Option String) :
    Reads (.record (partitionFields spec)) ((partitionRecord spec v).flatMap encodePartitionDatum)
      (.record (partitionValues spec v)) := by
  cases spec with
  | none => exact .record .nil
  | some spec =>
    let slot (i : Nat) := ((splitPartitionValue (v.getD ""))[i]?).filter (· ≠ "")
    have hfields : ReadsFields
        (.ofList (spec.fields.zipIdx.map fun p => (p.1.name, optional (partitionType p.1)))) _
        (spec.fields.zipIdx.map fun p =>
          (p.1.name, datumValue (encodePartitionValue p.1 (slot p.2)))) :=
      .ofList fun p _ => reads_encodePartitionDatum p.1 (slot p.2)
    have htypes : spec.fields.zipIdx.map (fun p => (p.1.name, optional (partitionType p.1))) =
        spec.fields.map fun f => (f.name, optional (partitionType f)) := by
      apply ext_getElem
      · simp
      · intro i hi hi'
        simp
    have hvalues : partitionValues (some spec) v = spec.fields.zipIdx.map fun p =>
        (p.1.name, datumValue (encodePartitionValue p.1 (slot p.2))) := by
      apply ext_getElem
      · simp [partitionValues,partitionRecord]
      · intro i hi hi'
        simp [partitionValues,partitionRecord,slot]
    rw [htypes] at hfields
    rw [hvalues,partitionRecord,flatMap_map]
    exact .record hfields

theorem datumOf_partitionValues (spec : Option PartitionSpec) (v : Option String) :
    (partitionValues spec v).map (fun p => datumOf p.2) = partitionRecord spec v := by
  cases spec with
  | none => rfl
  | some spec =>
    apply ext_getElem
    · simp [partitionValues,partitionRecord]
    · intro i hi hi'
      simp [partitionValues]

/-! The entry as a whole. -/

def keyMetadataValue (b : Option Bytes) : Value :=
  match b with
  | some b => .union 1 (.bytes b)
  | none => .union 0 .null

def firstRowIdValue (id : Option Int) : Value :=
  match id with
  | some id => .union 1 (.long id)
  | none => .union 0 .null

def longMapValue (stats : Option (List (Int32 × FieldStats))) (getValue : FieldStats → Option Int) :
    Value :=
  intMapValue .long ((stats.getD []).filterMap fun p => (getValue p.2).map fun v => (p.1, v))

def bytesMapValue (base64 : String → Option Bytes) (stats : Option (List (Int32 × FieldStats)))
    (getBound : FieldStats → Option String) : Value :=
  intMapValue .bytes
    ((stats.getD []).filterMap fun p => ((getBound p.2).bind base64).map fun b => (p.1, b))

def entryValue (codecs : Codecs) (snapshotId sequenceNumber : Int) (spec : Option PartitionSpec)
    (f : DataFileEntry) : Value :=
  let e := manifestEntry spec sequenceNumber f
  let stats := e.columnStats.bind codecs.stats
  let none : Value := .union 0 .null
  .record [("status", .int 1), ("snapshot_id", .union 1 (.long snapshotId)),
    ("sequence_number", .union 1 (.long sequenceNumber)),
    ("file_sequence_number", .union 1 (.long sequenceNumber)),
    ("data_file", .record [("content", .int 0), ("file_path", .string e.filePath),
      ("file_format", .string "PARQUET"),
      ("partition", .record (partitionValues spec f.partitionValue)),
      ("record_count", .long (asI64 e.recordCount)),
      ("file_size_in_bytes", .long (asI64 e.fileSizeInBytes)),
      ("column_sizes", longMapValue stats (some ·.columnSize)),
      ("value_counts", longMapValue stats (some ·.valueCount)),
      ("null_value_counts", longMapValue stats (some ·.nullCount)), ("nan_value_counts", none),
      ("lower_bounds", bytesMapValue codecs.base64 stats (·.lowerBoundB64)),
      ("upper_bounds", bytesMapValue codecs.base64 stats (·.upperBoundB64)),
      ("key_metadata", keyMetadataValue (e.keyMetadata.bind codecs.extToVec)),
      ("split_offsets", none), ("equality_ids", none), ("sort_order_id", none),
      ("first_row_id", firstRowIdValue e.firstRowId)])]

theorem reads_keyMetadata (b : Option Bytes) :
    Reads (optional .bytes) (match b with
      | some b => encodeUnionBytes 1 b
      | none => encodeUnionNull) (keyMetadataValue b) := by
  cases b with
  | none => exact reads_encodeUnionNull
  | some b => exact reads_encodeUnionBytes b

theorem reads_firstRowId (id : Option Int) :
    Reads (optional .long) (match id with
      | some id => encodeUnionLong 1 id
      | none => encodeUnionNull) (firstRowIdValue id) := by
  cases id with
  | none => exact reads_encodeUnionNull
  | some id => exact reads_encodeUnionLong id

theorem reads_entryBytes (codecs : Codecs) (snapshotId sequenceNumber : Int)
    (spec : Option PartitionSpec) (f : DataFileEntry) :
    Reads (manifestEntryType (partitionFields spec))
      (entryBytes codecs snapshotId sequenceNumber (manifestEntry spec sequenceNumber f))
      (entryValue codecs snapshotId sequenceNumber spec f) := by
  have hfile : Reads (dataFileType (partitionFields spec))
      (dataFileBytes codecs (manifestEntry spec sequenceNumber f)) _ := .record <|
    .cons (reads_encodeInt (by decide)) <| .cons (reads_encodeString _) <|
    .cons (reads_encodeString _) <| .cons (reads_partitionRecord spec f.partitionValue) <|
    .cons (reads_encodeLong _) <| .cons (reads_encodeLong _) <|
    .cons (reads_encodeIntMap reads_encodeLong _) <|
    .cons (reads_encodeIntMap reads_encodeLong _) <|
    .cons (reads_encodeIntMap reads_encodeLong _) <| .cons reads_encodeUnionNull <|
    .cons (reads_encodeIntMap Reads.bytes _) <| .cons (reads_encodeIntMap Reads.bytes _) <|
    .cons (reads_keyMetadata _) <| .cons reads_encodeUnionNull <| .cons reads_encodeUnionNull <|
    .cons reads_encodeUnionNull <| .cons (reads_firstRowId _) .nil
  exact .record <| .cons (reads_encodeInt (by decide)) <| .cons (reads_encodeUnionLong _) <|
    .cons (reads_encodeUnionLong _) <| .cons (reads_encodeUnionLong _) <| .cons hfile .nil

/-- The counts fit the types that the entry keeps them in. -/
structure FileInRange (f : DataFileEntry) : Prop where
  recordCount : f.recordCount < 2 ^ 64
  fileSizeBytes : f.fileSizeBytes < 2 ^ 64

theorem finite_extOf {f : DataFileEntry} {e : AilakeEntryExt} (h : extOf f = some e) : Finite e := by
  have hsanitized (radius : Option F32) : ∀ r ∈ sanitizeRadius radius, F32.isFinite r = true :=
    fun r hr => (Option.filter_eq_some_iff.1 hr).2
  cases h
  refine ⟨hsanitized f.radius, ?_⟩
  intro idx hidx
  obtain ⟨idx',-,rfl⟩ := mem_map.1 hidx
  exact hsanitized idx'.radius

theorem readEntryValue_entryValue {codecs : Codecs} {f : DataFileEntry} (hcodecs : codecs.Keeps f)
    (hf : FileInRange f) (snapshotId sequenceNumber : Int) (spec : Option PartitionSpec) :
    readEntryValue codecs (entryValue codecs snapshotId sequenceNumber spec f) =
      some { manifestEntry spec sequenceNumber f with columnStats := none } := by
  obtain ⟨ext,hext⟩ : ∃ ext, extOf f = some ext := ⟨_,rfl⟩
  obtain ⟨b,hto,hfrom⟩ := hcodecs ext hext (finite_extOf hext)
  have hext : (manifestEntry spec sequenceNumber f).keyMetadata = some ext := hext
  have hcount : asU64 (asI64 (manifestEntry spec sequenceNumber f).recordCount) =
      (manifestEntry spec sequenceNumber f).recordCount := asU64_asI64 hf.recordCount
  have hsize : asU64 (asI64 (manifestEntry spec sequenceNumber f).fileSizeInBytes) =
      (manifestEntry spec sequenceNumber f).fileSizeInBytes := asU64_asI64 hf.fileSizeBytes
  have hpartition := datumOf_partitionValues spec f.partitionValue
  have hrow (id : Option Int) : behindUnion longOf (firstRowIdValue id) = id := by
    cases id <;> rfl
  simp [readEntryValue,entryValue,recordOf,fieldAs,field,stringOf,longOf,behindUnion,
    bytesOf,parseV3FirstRowId,parseV3DeletionVector,keyMetadataValue,hext,hto,hfrom,hcount,
    hsize,hpartition]
  exact ⟨rfl, rfl, hrow _, rfl⟩

theorem readManifestFile_bytes {schemas : SchemaTexts} {codecs : Codecs} {spec : Option PartitionSpec}
    (hschema : schemas.Knows (manifestEntryType (partitionFields spec)))
    {files : List DataFileEntry} (hcodecs : ∀ f ∈ files, codecs.Keeps f)
    (hfiles : ∀ f ∈ files, FileInRange f)
    (snapshotId sequenceNumber : Int) (tableSchemaJson partitionSpecJson : String)
    (formatVersion : Nat) :
    readManifestFile schemas codecs (writeManifestFile schemas codecs files snapshotId
      sequenceNumber tableSchemaJson partitionSpecJson formatVersion spec) =
        some (files.map (·.stamped spec sequenceNumber)) := by
  have hread := readContainer_of_reads hschema
    (fun f (_ : f ∈ files) => reads_entryBytes codecs snapshotId sequenceNumber spec f)
  rw [readManifestFile,writeManifestFile,AiLake.writeManifestFile,map_map]
  rw [show entryBytes codecs snapshotId sequenceNumber ∘ manifestEntry spec sequenceNumber =
    fun f => entryBytes codecs snapshotId sequenceNumber (manifestEntry spec sequenceNumber f)
    from rfl,hread,Option.map_some,AiLake.readManifestFile,filterMap_map,
    map_filterMap,Option.some.injEq,← filterMap_eq_map]
  apply filterMap_congr
  intro f hf
  have hentry := readEntryValue_entryValue (hcodecs f hf) (hfiles f hf) snapshotId sequenceNumber
    spec
  have hstamped := readManifestEntry_manifestEntry spec sequenceNumber f
  simp only [Function.comp_apply,hentry,Option.map_some,← hstamped]
  rfl

/-- What of an entry has to last: statistics are only written, radii that are not finite are dropped
and the sequence number is the commit's. -/
def lasting (f : DataFileEntry) : DataFileEntry :=
  { f with
    radius := sanitizeRadius f.radius
    extraVectorIndexes :=
      f.extraVectorIndexes.map fun idx => { idx with radius := sanitizeRadius idx.radius }
    columnStats := none
    sequenceNumber := 0 }

theorem sanitizeRadius_idem (radius : Option F32) :
    sanitizeRadius (sanitizeRadius radius) = sanitizeRadius radius := by
  simp [sanitizeRadius,Option.filter_filter]

theorem lasting_stamped (spec : Option PartitionSpec) (sequenceNumber : Int) (f : DataFileEntry) :
    lasting (f.stamped spec sequenceNumber) =
      { lasting f with partitionValue := storedPartitionValue spec f.partitionValue } := by
  simp [lasting,DataFileEntry.stamped,sanitizeRadius_idem,Function.comp_def]

theorem lasting_stamped_eq_iff (spec : Option PartitionSpec) (sequenceNumber : Int)
    (f : DataFileEntry) : lasting (f.stamped spec sequenceNumber) = lasting f ↔
      PartitionKept spec f.partitionValue := by
  rw [lasting_stamped,← storedPartitionValue_eq_iff]
  constructor
  · intro h
    exact congrArg DataFileEntry.partitionValue h
  · intro h
    rw [h]
    rfl

def demoField (name sourceType : String) : PartitionField where
  sourceId := 1
  fieldId := 1000
  name := name
  transform := "identity"
  sourceType := sourceType

def demoSpec : PartitionSpec where
  specId := 1
  fields := [demoField "agent" "string", demoField "day" "int"]

def demoFile (partitionValue : Option String) : DataFileEntry where
  path := "data/f0.parquet"
  recordCount := 3
  fileSizeBytes := 900
  centroidB64 := none
  radius := none
  hnswOffset := none
  hnswLen := none
  vectorColumn := none
  vectorDim := none
  extraVectorIndexes := []
  indexStatus := .ready
  indexError := none
  batchId := some "k"
  embeddingModel := none
  partitionValue := partitionValue
  deletionVector := none
  firstRowId := some 40
  columnStats := some "s"
  sequenceNumber := 0

/-- JSON of one file, and the statistics of one column. -/
def demoCodecs (f : DataFileEntry) : Codecs where
  stats := fun _ => some [(2, ⟨3, 0, 24, some "", none⟩)]
  base64 := fun _ => some [7, 8]
  extToVec := fun _ => some [123, 125]
  extFromSlice := fun _ => extOf f

theorem demoCodecs_keeps (f : DataFileEntry) : (demoCodecs f).Keeps f :=
  fun _ he _ => ⟨_,rfl,he⟩

theorem demoFile_inRange (value : Option String) : FileInRange (demoFile value) := by
  constructor <;> simp [demoFile]

def demoManifest (f : DataFileEntry) : Option (List DataFileEntry) :=
  let schemas := demoSchemas (manifestEntryType (partitionFields (some demoSpec)))
  readManifestFile schemas (demoCodecs f)
    (writeManifestFile schemas (demoCodecs f) [f] 4 7 "s" "p" 2 (some demoSpec))

end AiLake.ManifestBytes
