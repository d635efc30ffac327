import AiLake.ManifestBytes

/-! Manifest lists with all their fields. The commit path reads back the path and the content of a
manifest only. -/
namespace AiLake

open Avro

structure ManifestFile where
  manifestPath : String
  manifestLength : Int
  partitionSpecId : Int
  content : Int
  sequenceNumber : Int
  minSequenceNumber : Int
  addedSnapshotId : SnapshotId
  addedDataFilesCount : Int
  existingDataFilesCount : Int
  deletedDataFilesCount : Int
  addedRowsCount : Int
  existingRowsCount : Int
  deletedRowsCount : Int
  deriving DecidableEq, Repr

def ManifestFile.entry (r : ManifestFile) : ManifestListEntry := ⟨r.manifestPath, r.content⟩

/- Every manifest gets the numbers of the commit that writes the list; the last one gets its rows. -/
def writeManifestListMultiTyped (manifests : List (ManifestListEntry × Int))
    (snapshotId : SnapshotId) (sequenceNumber addedRows : Int) : List ManifestFile :=
  manifests.zipIdx.map fun p => {
    manifestPath := p.1.1.manifestPath
    manifestLength := p.1.2
    partitionSpecId := 0
    content := p.1.1.content
    sequenceNumber := sequenceNumber
    minSequenceNumber := sequenceNumber
    addedSnapshotId := snapshotId
    addedDataFilesCount := 1
    existingDataFilesCount := 0
    deletedDataFilesCount := 0
    addedRowsCount := if p.2 + 1 = manifests.length then addedRows else 0
    existingRowsCount := 0
    deletedRowsCount := 0 }

theorem map_entry_writeManifestListMultiTyped (manifests : List (ManifestListEntry × Int))
    (snapshotId : SnapshotId) (sequenceNumber addedRows : Int) :
    (writeManifestListMultiTyped manifests snapshotId sequenceNumber addedRows).map
      ManifestFile.entry = manifests.map Prod.fst := by
  apply List.ext_getElem
  · simp [writeManifestListMultiTyped]
  · intro i hi hi'
    simp [writeManifestListMultiTyped,ManifestFile.entry]

namespace ManifestBytes

def partitionSummaryType : Ty := .record (.ofList [("contains_null", .boolean),
  ("contains_nan", optional .boolean), ("lower_bound", optional .bytes),
  ("upper_bound", optional .bytes)])

def manifestFileType : Ty := .record (.ofList [("manifest_path", .string),
  ("manifest_length", .long), ("partition_spec_id", .int), ("content", .int),
  ("sequence_number", .long), ("min_sequence_number", .long), ("added_snapshot_id", .long),
  ("added_data_files_count", .int), ("existing_data_files_count", .int),
  ("deleted_data_files_count", .int), ("added_rows_count", .long), ("existing_rows_count", .long),
  ("deleted_rows_count", .long), ("partitions", .array partitionSummaryType)])

def manifestFileBytes (r : ManifestFile) : Bytes :=
  [encodeString r.manifestPath, encodeLong r.manifestLength, encodeInt r.partitionSpecId,
    encodeInt r.content, encodeLong r.sequenceNumber, encodeLong r.minSequenceNumber,
    encodeLong r.addedSnapshotId, encodeInt r.addedDataFilesCount,
    encodeInt r.existingDataFilesCount, encodeInt r.deletedDataFilesCount,
    encodeLong r.addedRowsCount, encodeLong r.existingRowsCount, encodeLong r.deletedRowsCount,
    encodeEmptyArray].flatten

def writeManifestList (schemas : SchemaTexts) (records : List ManifestFile) : Bytes :=
  writeAvroContainer (schemas.text manifestFileType) [] (records.map manifestFileBytes)

/- A record without a path is passed over. -/
def readManifestFileEntry (v : Value) : Option ManifestListEntry :=
  (recordOf v).bind fun fields => (fieldAs stringOf fields "manifest_path").map fun path =>
    ⟨path, (fieldAs intOf fields "content").getD 0⟩

def readManifestListTyped (schemas : SchemaTexts) (data : Bytes) :
    Option (List ManifestListEntry) :=
  (readContainer schemas.parse data).map fun values => values.filterMap readManifestFileEntry

/-- The numbers that are kept in 32 bits fit them. -/
structure CountsInRange (r : ManifestFile) : Prop where
  partitionSpecId : fitsInt r.partitionSpecId = true
  content : fitsInt r.content = true
  addedDataFilesCount : fitsInt r.addedDataFilesCount = true
  existingDataFilesCount : fitsInt r.existingDataFilesCount = true
  deletedDataFilesCount : fitsInt r.deletedDataFilesCount = true

def manifestFileValue (r : ManifestFile) : Value := .record [
  ("manifest_path", .string r.manifestPath), ("manifest_length", .long r.manifestLength),
  ("partition_spec_id", .int r.partitionSpecId), ("content", .int r.content),
  ("sequence_number", .long r.sequenceNumber), ("min_sequence_number", .long r.minSequenceNumber),
  ("added_snapshot_id", .long r.addedSnapshotId),
  ("added_data_files_count", .int r.addedDataFilesCount),
  ("existing_data_files_count", .int r.existingDataFilesCount),
  ("deleted_data_files_count", .int r.deletedDataFilesCount),
  ("added_rows_count", .long r.addedRowsCount), ("existing_rows_count", .long r.existingRowsCount),
  ("deleted_rows_count", .long r.deletedRowsCount), ("partitions", .array [])]

theorem reads_manifestFileBytes {r : ManifestFile} (h : CountsInRange r) :
    Reads manifestFileType (manifestFileBytes r) (manifestFileValue r) :=
  .record <| .cons (reads_encodeString _) <| .cons (reads_encodeLong _) <|
    .cons (reads_encodeInt h.partitionSpecId) <| .cons (reads_encodeInt h.content) <|
    .cons (reads_encodeLong _) <| .cons (reads_encodeLong _) <| .cons (reads_encodeLong _) <|
    .cons (reads_encodeInt h.addedDataFilesCount) <|
    .cons (reads_encodeInt h.existingDataFilesCount) <|
    .cons (reads_encodeInt h.deletedDataFilesCount) <| .cons (reads_encodeLong _) <|
    .cons (reads_encodeLong _) <| .cons (reads_encodeLong _) <|
    .cons (reads_encodeEmptyArray _) .nil

theorem readManifestFileEntry_value (r : ManifestFile) :
    readManifestFileEntry (manifestFileValue r) = some r.entry := by
  simp [readManifestFileEntry,manifestFileValue,recordOf,fieldAs,field,stringOf,intOf,
    ManifestFile.entry]

theorem readManifestListTyped_writeManifestList {schemas : SchemaTexts}
    (hschema : schemas.Knows manifestFileType) {records : List ManifestFile}
    (hrange : ∀ r ∈ records, CountsInRange r) :
    readManifestListTyped schemas (writeManifestList schemas records) =
      some (records.map ManifestFile.entry) := by
  rw [readManifestListTyped,writeManifestList,
    readContainer_of_reads hschema fun r hr => reads_manifestFileBytes (hrange r hr),
    Option.map_some,Option.some.injEq,List.filterMap_map,← List.filterMap_eq_map]
  apply List.filterMap_congr
  intro r _
  exact readManifestFileEntry_value r

theorem countsInRange_multiTyped {manifests : List (ManifestListEntry × Int)}
    (hcontent : ∀ e ∈ manifests, fitsInt e.1.content = true) (snapshotId : SnapshotId)
    (sequenceNumber addedRows : Int) {r : ManifestFile}
    (hr : r ∈ writeManifestListMultiTyped manifests snapshotId sequenceNumber addedRows) :
    CountsInRange r := by
  obtain ⟨⟨e,i⟩,he,rfl⟩ := List.mem_map.1 hr
  have hmem : e ∈ manifests := List.fst_mem_of_mem_zipIdx he
  exact ⟨rfl, hcontent e hmem, rfl, rfl, rfl⟩

theorem readManifestListTyped_multiTyped {schemas : SchemaTexts}
    (hschema : schemas.Knows manifestFileType) {manifests : List (ManifestListEntry × Int)}
    (hcontent : ∀ e ∈ manifests, fitsInt e.1.content = true) (snapshotId : SnapshotId)
    (sequenceNumber addedRows : Int) :
    readManifestListTyped schemas (writeManifestList schemas
      (writeManifestListMultiTyped manifests snapshotId sequenceNumber addedRows)) =
        some (manifests.map Prod.fst) := by
  rw [readManifestListTyped_writeManifestList hschema,map_entry_writeManifestListMultiTyped]
  intro r hr
  exact countsInRange_multiTyped hcontent snapshotId sequenceNumber addedRows hr

end ManifestBytes
end AiLake
