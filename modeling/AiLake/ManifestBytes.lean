import AiLake.AvroManifest
import AiLake.AvroRaw

/-! The bytes of manifests: the writers put every record together by hand, the readers follow the
schema in the file. -/
namespace AiLake.ManifestBytes

open Avro

/-! The schema of manifest entries. -/

def optional (t : Ty) : Ty := .union (.cons .null (.cons t .nil))

def intMap (value : Ty) : Ty :=
  optional (.array (.record (.ofList [("key", .int), ("value", value)])))

def dataFileType (partition : Fields) : Ty := .record (.ofList [
  ("content", .int), ("file_path", .string), ("file_format", .string),
  ("partition", .record partition), ("record_count", .long), ("file_size_in_bytes", .long),
  ("column_sizes", intMap .long), ("value_counts", intMap .long),
  ("null_value_counts", intMap .long), ("nan_value_counts", intMap .long),
  ("lower_bounds", intMap .bytes), ("upper_bounds", intMap .bytes),
  ("key_metadata", optional .bytes), ("split_offsets", optional (.array .long)),
  ("equality_ids", optional (.array .int)), ("sort_order_id", optional .int),
  ("first_row_id", optional .long)])

def manifestEntryType (partition : Fields) : Ty := .record (.ofList [
  ("status", .int), ("snapshot_id", optional .long), ("sequence_number", optional .long),
  ("file_sequence_number", optional .long), ("data_file", dataFileType partition)])

/- `u64 as i64` and back. -/
def asI64 (n : Nat) : Int := (BitVec.ofNat 64 n).toInt

def asU64 (n : Int) : Nat := (BitVec.ofInt 64 n).toNat

theorem asU64_asI64 {n : Nat} (h : n < 2 ^ 64) : asU64 (asI64 n) = n := by
  simp only [asU64,asI64,BitVec.ofInt_toInt,BitVec.toNat_ofNat]
  omega

theorem fitsInt_toInt (n : Int32) : fitsInt n.toInt = true := by
  have hlow := n.le_toInt
  have hhigh := n.toInt_lt
  simp [fitsInt]
  omega

/-! Values as the readers take them apart. -/

def longOf : Value → Option Int
  | .long n => some n
  | _ => none

def intOf : Value → Option Int
  | .int n => some n
  | _ => none

def stringOf : Value → Option String
  | .string s => some s
  | _ => none

def bytesOf : Value → Option Bytes
  | .bytes b => some b
  | _ => none

/-- A value behind a union or without one. -/
def behindUnion {α : Type} (read : Value → Option α) : Value → Option α
  | .union _ v => read v
  | v => read v

def recordOf : Value → Option (List (String × Value))
  | .record fields => some fields
  | _ => none

def fieldAs {α : Type} (read : Value → Option α) (fields : List (String × Value)) (name : String) :
    Option α := (field fields name).bind read

/-! Equality-delete manifests. -/

def equalityIds (ids : List Int) : Bytes :=
  [encodeLong 1, encodeLong ids.length, ids.flatMap encodeInt, encodeLong 0].flatten

/- A nested record has no bytes of its own, and neither has the empty partition record. -/
def equalityDeleteDataFile (d : EqualityDeleteFile) : Bytes :=
  [encodeInt 2, encodeString d.path, encodeString "AVRO", [], encodeLong (asI64 d.recordCount),
    encodeLong (asI64 d.fileSizeBytes), encodeUnionNull, encodeUnionNull, encodeUnionNull,
    encodeUnionNull, encodeUnionNull, encodeUnionNull, encodeUnionNull, encodeUnionNull,
    equalityIds d.equalityIds, encodeUnionNull, encodeUnionNull].flatten

def equalityDeleteRecord (snapshotId sequenceNumber : Int) (d : EqualityDeleteFile) : Bytes :=
  [encodeInt 1, encodeUnionLong 1 snapshotId, encodeUnionLong 1 sequenceNumber,
    encodeUnionLong 1 sequenceNumber, equalityDeleteDataFile d].flatten

def deletesMeta : List (String × Bytes) := [
  ("schema", utf8 "\x7b\"schema-id\":0,\"type\":\"struct\",\"fields\":[]\x7d"),
  ("partition-spec", utf8 "[\x7b\"spec-id\":0,\"fields\":[]\x7d]"), ("partition-spec-id", utf8 "0"),
  ("format-version", utf8 "2"), ("content", utf8 "deletes")]

def writeEqualityDeleteManifest (schemas : SchemaTexts) (deletes : List EqualityDeleteFile)
    (snapshotId sequenceNumber : Int) : Bytes :=
  writeAvroContainer (schemas.text (manifestEntryType .nil)) deletesMeta
    (deletes.map (equalityDeleteRecord snapshotId sequenceNumber))

def intsOf : Value → Option (List Int)
  | .array items => some (items.filterMap intOf)
  | _ => none

/- Entries of another content, and entries without a path, are passed over. -/
def readEqualityDelete (v : Value) : Option EqualityDeleteFile :=
  (recordOf v).bind fun fields =>
    (fieldAs recordOf fields "data_file").bind fun file =>
      if (fieldAs intOf file "content").getD 0 ≠ 2 then none
      else (fieldAs stringOf file "file_path").map fun path => {
        path := path
        equalityIds := (fieldAs (behindUnion intsOf) file "equality_ids").getD []
        recordCount := ((fieldAs longOf file "record_count").map asU64).getD 0
        fileSizeBytes := ((fieldAs longOf file "file_size_in_bytes").map asU64).getD 0
        inlineValues := none
        sequenceNumber := (fieldAs (behindUnion longOf) fields "sequence_number").getD 0 }

def readEqualityDeleteManifest (schemas : SchemaTexts) (data : Bytes) :
    Option (List EqualityDeleteFile) :=
  (readContainer schemas.parse data).map fun values => values.filterMap readEqualityDelete

/-- The numbers fit the types that the entry keeps them in. -/
structure InRange (d : EqualityDeleteFile) : Prop where
  recordCount : d.recordCount < 2 ^ 64
  fileSizeBytes : d.fileSizeBytes < 2 ^ 64
  equalityIds : ∀ id ∈ d.equalityIds, fitsInt id = true

theorem reads_equalityIds {ids : List Int} (hfit : ∀ id ∈ ids, fitsInt id = true) (hne : ids ≠ []) :
    Reads (optional (.array .int)) (equalityIds ids) (.union 1 (.array (ids.map .int))) := by
  have harray := Reads.array (fun id hid => reads_encodeInt (hfit id hid)) hne
  have hunion : Reads (optional (.array .int)) _ _ := .union_one harray
  simpa [equalityIds,encodeLong,optional] using hunion

def deleteValue (snapshotId sequenceNumber : Int) (d : EqualityDeleteFile) : Value :=
  let none : Value := .union 0 .null
  .record [("status", .int 1), ("snapshot_id", .union 1 (.long snapshotId)),
    ("sequence_number", .union 1 (.long sequenceNumber)),
    ("file_sequence_number", .union 1 (.long sequenceNumber)),
    ("data_file", .record [("content", .int 2), ("file_path", .string d.path),
      ("file_format", .string "AVRO"), ("partition", .record []),
      ("record_count", .long (asI64 d.recordCount)),
      ("file_size_in_bytes", .long (asI64 d.fileSizeBytes)), ("column_sizes", none),
      ("value_counts", none), ("null_value_counts", none), ("nan_value_counts", none),
      ("lower_bounds", none), ("upper_bounds", none), ("key_metadata", none),
      ("split_offsets", none), ("equality_ids", .union 1 (.array (d.equalityIds.map .int))),
      ("sort_order_id", none), ("first_row_id", none)])]

theorem reads_equalityDeleteRecord {d : EqualityDeleteFile} (h : InRange d)
    (hne : d.equalityIds ≠ []) (snapshotId sequenceNumber : Int) :
    Reads (manifestEntryType .nil) (equalityDeleteRecord snapshotId sequenceNumber d)
      (deleteValue snapshotId sequenceNumber d) := by
  have hfile : Reads (dataFileType .nil) (equalityDeleteDataFile d) _ := .record <|
    .cons (reads_encodeInt (by decide)) <| .cons (reads_encodeString _) <|
    .cons (reads_encodeString _) <| .cons (.record .nil) <| .cons (reads_encodeLong _) <|
    .cons (reads_encodeLong _) <| .cons reads_encodeUnionNull <| .cons reads_encodeUnionNull <|
    .cons reads_encodeUnionNull <| .cons reads_encodeUnionNull <| .cons reads_encodeUnionNull <|
    .cons reads_encodeUnionNull <| .cons reads_encodeUnionNull <| .cons reads_encodeUnionNull <|
    .cons (reads_equalityIds h.equalityIds hne) <| .cons reads_encodeUnionNull <|
    .cons reads_encodeUnionNull .nil
  exact .record <| .cons (reads_encodeInt (by decide)) <| .cons (reads_encodeUnionLong _) <|
    .cons (reads_encodeUnionLong _) <| .cons (reads_encodeUnionLong _) <| .cons hfile .nil

theorem readEqualityDelete_deleteValue {d : EqualityDeleteFile} (h : InRange d)
    (snapshotId sequenceNumber : Int) :
    readEqualityDelete (deleteValue snapshotId sequenceNumber d) =
      some (d.stamped sequenceNumber) := by
  have hids : (d.equalityIds.map Value.int).filterMap intOf = d.equalityIds := by
    simp [List.filterMap_map,Function.comp_def,intOf]
  simp [readEqualityDelete,deleteValue,recordOf,fieldAs,field,intOf,stringOf,longOf,
    behindUnion,intsOf,hids,asU64_asI64 h.recordCount,asU64_asI64 h.fileSizeBytes,
    EqualityDeleteFile.stamped]

theorem readContainer_writeEqualityDeleteManifest {schemas : SchemaTexts}
    (hschema : schemas.Knows (manifestEntryType .nil)) {deletes : List EqualityDeleteFile}
    (hrange : ∀ d ∈ deletes, InRange d) (hids : ∀ d ∈ deletes, d.equalityIds ≠ [])
    (snapshotId sequenceNumber : Int) :
    readContainer schemas.parse
      (writeEqualityDeleteManifest schemas deletes snapshotId sequenceNumber) =
        some (deletes.map (deleteValue snapshotId sequenceNumber)) := by
  refine readContainer_of_reads hschema ?_ deletesMeta
  intro d hd
  exact reads_equalityDeleteRecord (hrange d hd) (hids d hd) snapshotId sequenceNumber

/-- Entries that all have equality ids come back in order, with the commit's sequence number and
without the values that are only kept in memory. -/
theorem readEqualityDeleteManifest_writeEqualityDeleteManifest {schemas : SchemaTexts}
    (hschema : schemas.Knows (manifestEntryType .nil)) {deletes : List EqualityDeleteFile}
    (hrange : ∀ d ∈ deletes, InRange d) (hids : ∀ d ∈ deletes, d.equalityIds ≠ [])
    (snapshotId sequenceNumber : Int) :
    readEqualityDeleteManifest schemas
      (writeEqualityDeleteManifest schemas deletes snapshotId sequenceNumber) =
        some (deletes.map (·.stamped sequenceNumber)) := by
  rw [readEqualityDeleteManifest,
    readContainer_writeEqualityDeleteManifest hschema hrange hids,Option.map_some,
    Option.some.injEq,List.filterMap_map,← List.filterMap_eq_map]
  apply List.filterMap_congr
  intro d hd
  exact readEqualityDelete_deleteValue (hrange d hd) snapshotId sequenceNumber

def demoSchemas (t : Ty) : SchemaTexts := ⟨fun _ => "", fun _ => some t⟩

theorem demoSchemas_knows (t : Ty) : (demoSchemas t).Knows t := rfl

def demoDelete (path : String) (ids : List Int) : EqualityDeleteFile where
  path := path
  equalityIds := ids
  recordCount := 3
  fileSizeBytes := 90
  inlineValues := some ("a", ["x"])
  sequenceNumber := 9

theorem readEqualityDeleteManifest_write_demo :
    readEqualityDeleteManifest (demoSchemas (manifestEntryType .nil))
      (writeEqualityDeleteManifest (demoSchemas (manifestEntryType .nil))
        [demoDelete "d0.avro" [2, -1], demoDelete "d1.avro" [5]] 4 7) =
      some ([demoDelete "d0.avro" [2, -1], demoDelete "d1.avro" [5]].map (·.stamped 7)) :=
  readEqualityDeleteManifest_writeEqualityDeleteManifest (demoSchemas_knows _)
    (by
      intro d hd
      simp only [List.mem_cons,List.not_mem_nil,or_false] at hd
      rcases hd with rfl | rfl <;> exact ⟨by decide, by decide, by decide⟩)
    (by decide) 4 7

/-- The sequence number and the values of an entry are not its own once read back. Nothing is read
behind an entry without ids: its count already ends the array, and the end marker shifts the next
record. -/
theorem readEqualityDeleteManifest_write_differs :
    readEqualityDeleteManifest (demoSchemas (manifestEntryType .nil))
      (writeEqualityDeleteManifest (demoSchemas (manifestEntryType .nil))
        [demoDelete "d0.avro" [2]] 4 7) ≠ some [demoDelete "d0.avro" [2]] ∧
    readEqualityDeleteManifest (demoSchemas (manifestEntryType .nil))
      (writeEqualityDeleteManifest (demoSchemas (manifestEntryType .nil))
        [demoDelete "d0.avro" [], demoDelete "d1.avro" [5]] 4 7) = none := by
  have hknown := demoSchemas_knows (manifestEntryType .nil)
  constructor
  · have hrange : ∀ d ∈ [demoDelete "d0.avro" [2]], InRange d := by
      intro d hd
      obtain rfl := List.mem_singleton.1 hd
      exact ⟨by decide, by decide, by decide⟩
    rw [readEqualityDeleteManifest,
      readContainer_writeEqualityDeleteManifest hknown hrange (by decide)]
    decide
  · rw [readEqualityDeleteManifest,writeEqualityDeleteManifest,
      readContainer_writeAvroContainer hknown]
    decide

end AiLake.ManifestBytes
