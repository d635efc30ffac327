import AiLake.Binary.LittleEndian
import AiLake.VectorWrites

/-! The bytes of a data file (`footer.rs`, `writer.rs`, `reader.rs`): the sections stand between the
row groups and the footer of a Parquet file. -/
namespace AiLake

open Binary

/-! `footer.rs`. -/

def ailakeMagic : Bytes := [0x41, 0x49, 0x4C, 0x4B]

def ailakeFormatVersion : UInt16 := 1

def trailerSize : Nat := 24

def headerSize : Nat := 64

/- `flags & 1`. -/
def flagIndexIvfPq : UInt16 := 1

def ailkFtsMagic : Bytes := [0x41, 0x46, 0x54, 0x53]

def ailkFtsHeaderSize : Nat := 16

def parquetMagic : Bytes := [0x50, 0x41, 0x52, 0x31]

def VectorPrecision.byte : VectorPrecision → UInt8
  | .f32 => 0
  | .f16 => 1
  | .i8 => 2

def VectorPrecision.ofByte (v : UInt8) : Except AilakeError VectorPrecision :=
  if v = 0 then .ok .f32
  else if v = 1 then .ok .f16
  else if v = 2 then .ok .i8
  else .error (.invalidArgument ("invalid precision byte: " ++ toString v.toNat ++
    " (valid: 0=F32, 1=F16, 2=I8; 3 reserved)"))

def VectorMetric.byte : VectorMetric → UInt8
  | .cosine => 0
  | .euclidean => 1
  | .dotProduct => 2
  | .normalizedCosine => 3

def VectorMetric.ofByte (v : UInt8) : Except AilakeError VectorMetric :=
  if v = 0 then .ok .cosine
  else if v = 1 then .ok .euclidean
  else if v = 2 then .ok .dotProduct
  else if v = 3 then .ok .normalizedCosine
  else .error (.invalidArgument ("invalid distance metric byte: " ++ toString v.toNat ++
    " (valid: 0=Cosine, 1=Euclidean, 2=DotProduct, 3=NormalizedCosine)"))

structure AilakeHeader where
  formatVersion : UInt16
  flags : UInt16
  dim : UInt32
  precision : VectorPrecision
  distanceMetric : VectorMetric
  recordCount : UInt64
  centroidOffset : UInt64
  centroidLen : UInt64
  hnswOffset : UInt64
  hnswLen : UInt64
  deriving DecidableEq, Repr

namespace AilakeHeader

def toBytes (h : AilakeHeader) : Bytes :=
  ailakeMagic ++ le 2 h.formatVersion.toNat ++ le 2 h.flags.toNat ++ le 4 h.dim.toNat ++
    [h.precision.byte, h.distanceMetric.byte, 0, 0] ++ le 8 h.recordCount.toNat ++
    le 8 h.centroidOffset.toNat ++ le 8 h.centroidLen.toNat ++ le 8 h.hnswOffset.toNat ++
    le 8 h.hnswLen.toNat ++ [0, 0, 0, 0, 0, 0, 0, 0]

/- The argument is an array of 64 bytes in the source. -/
def fromBytes (b : Bytes) : Except AilakeError AilakeHeader :=
  if slice b 0 4 ≠ ailakeMagic then .error (.invalidAilakeMagic (slice b 0 4))
  else if UInt16.ofNat (ofLe (slice b 4 6)) ≠ ailakeFormatVersion then
    .error (.unsupportedFormatVersion (UInt16.ofNat (ofLe (slice b 4 6))))
  else
    match VectorPrecision.ofByte (b.getD 12 0) with
    | .error e => .error e
    | .ok precision =>
      match VectorMetric.ofByte (b.getD 13 0) with
      | .error e => .error e
      | .ok metric => .ok {
          formatVersion := UInt16.ofNat (ofLe (slice b 4 6))
          flags := UInt16.ofNat (ofLe (slice b 6 8))
          dim := UInt32.ofNat (ofLe (slice b 8 12))
          precision := precision
          distanceMetric := metric
          recordCount := UInt64.ofNat (ofLe (slice b 16 24))
          centroidOffset := UInt64.ofNat (ofLe (slice b 24 32))
          centroidLen := UInt64.ofNat (ofLe (slice b 32 40))
          hnswOffset := UInt64.ofNat (ofLe (slice b 40 48))
          hnswLen := UInt64.ofNat (ofLe (slice b 48 56)) }

@[simp] theorem length_toBytes (h : AilakeHeader) : h.toBytes.length = headerSize := by
  simp [toBytes,ailakeMagic,headerSize]

theorem ofByte_precision (p : VectorPrecision) : VectorPrecision.ofByte p.byte = .ok p := by
  cases p <;> rfl

theorem ofByte_metric (m : VectorMetric) : VectorMetric.ofByte m.byte = .ok m := by
  cases m <;> rfl

theorem fromBytes_toBytes {h : AilakeHeader} (hv : h.formatVersion = ailakeFormatVersion) :
    fromBytes h.toBytes = .ok h := by
  have hmagic : slice h.toBytes 0 4 = ailakeMagic := rfl
  have hversion : slice h.toBytes 4 6 = le 2 h.formatVersion.toNat := rfl
  have hflags : slice h.toBytes 6 8 = le 2 h.flags.toNat := rfl
  have hdim : slice h.toBytes 8 12 = le 4 h.dim.toNat := rfl
  have hprecision : h.toBytes.getD 12 0 = h.precision.byte := rfl
  have hmetric : h.toBytes.getD 13 0 = h.distanceMetric.byte := rfl
  have hcount : slice h.toBytes 16 24 = le 8 h.recordCount.toNat := rfl
  have hco : slice h.toBytes 24 32 = le 8 h.centroidOffset.toNat := rfl
  have hcl : slice h.toBytes 32 40 = le 8 h.centroidLen.toNat := rfl
  have hho : slice h.toBytes 40 48 = le 8 h.hnswOffset.toNat := rfl
  have hhl : slice h.toBytes 48 56 = le 8 h.hnswLen.toNat := rfl
  rw [fromBytes,hmagic,hversion,hflags,hdim,hprecision,hmetric,hcount,hco,hcl,hho,hhl]
  simp only [ne_eq,not_true_eq_false,if_false,ofLe_le_uint16,ofLe_le_uint32,ofLe_le_uint64,hv,
    ofByte_precision,ofByte_metric]
  rw [← hv]

end AilakeHeader

structure AilakeTrailer where
  footerOffset : UInt64
  footerLen : UInt64
  formatVersion : UInt16
  flags : UInt16
  deriving DecidableEq, Repr

namespace AilakeTrailer

def toBytes (t : AilakeTrailer) : Bytes :=
  le 8 t.footerOffset.toNat ++ le 8 t.footerLen.toNat ++ le 2 t.formatVersion.toNat ++
    le 2 t.flags.toNat ++ ailakeMagic

def fromBytes (b : Bytes) : Except AilakeError AilakeTrailer :=
  if slice b 20 24 ≠ ailakeMagic then .error (.invalidAilakeMagic (slice b 20 24))
  else .ok {
    footerOffset := UInt64.ofNat (ofLe (slice b 0 8))
    footerLen := UInt64.ofNat (ofLe (slice b 8 16))
    formatVersion := UInt16.ofNat (ofLe (slice b 16 18))
    flags := UInt16.ofNat (ofLe (slice b 18 20)) }

@[simp] theorem length_toBytes (t : AilakeTrailer) : t.toBytes.length = trailerSize := by
  simp [toBytes,ailakeMagic,trailerSize]

theorem fromBytes_toBytes (t : AilakeTrailer) : fromBytes t.toBytes = .ok t := by
  have hmagic : slice t.toBytes 20 24 = ailakeMagic := rfl
  have hoffset : slice t.toBytes 0 8 = le 8 t.footerOffset.toNat := rfl
  have hlen : slice t.toBytes 8 16 = le 8 t.footerLen.toNat := rfl
  have hversion : slice t.toBytes 16 18 = le 2 t.formatVersion.toNat := rfl
  have hflags : slice t.toBytes 18 20 = le 2 t.flags.toNat := rfl
  rw [fromBytes,hmagic,hoffset,hlen,hversion,hflags]
  simp

end AilakeTrailer

def parquetFooterStart (buf : Bytes) : Except AilakeError Nat :=
  if buf.length < 8 then .error (.parquet "file too small")
  else if slice buf (buf.length - 4) buf.length ≠ parquetMagic then
    .error (.parquet "missing PAR1 footer magic")
  else
    let footerThriftLen := ofLe (slice buf (buf.length - 8) (buf.length - 4))
    if 8 + footerThriftLen ≤ buf.length then .ok (buf.length - (8 + footerThriftLen))
    else .error (.parquet "footer length overflow")

/-- The end of a Parquet file: the metadata, their length and the magic. -/
def parquetTail (thrift : Bytes) : Bytes := thrift ++ (le 4 thrift.length ++ parquetMagic)

theorem length_parquetTail (thrift : Bytes) : (parquetTail thrift).length = thrift.length + 8 := by
  simp [parquetTail,parquetMagic]

theorem parquetFooterStart_append (body : Bytes) {thrift : Bytes} (h : thrift.length < 2 ^ 32) :
    parquetFooterStart (body ++ parquetTail thrift) = .ok body.length := by
  have hlen : (body ++ parquetTail thrift).length = body.length + thrift.length + 8 := by
    rw [List.length_append,length_parquetTail]
    omega
  have hmagic : slice (body ++ parquetTail thrift) (body.length + thrift.length + 8 - 4)
      (body.length + thrift.length + 8) = parquetMagic := by
    have hparts : body ++ parquetTail thrift =
        (body ++ thrift ++ le 4 thrift.length) ++ (parquetMagic ++ []) := by simp [parquetTail]
    have hbefore : (body ++ thrift ++ le 4 thrift.length).length =
        body.length + thrift.length + 4 := by simp [Nat.add_assoc]
    exact slice_of_eq hparts (by omega) (by rw [hbefore]; rfl)
  have hthrift : slice (body ++ parquetTail thrift) (body.length + thrift.length + 8 - 8)
      (body.length + thrift.length + 8 - 4) = le 4 thrift.length := by
    have hparts : body ++ parquetTail thrift =
        (body ++ thrift) ++ (le 4 thrift.length ++ parquetMagic) := by simp [parquetTail]
    have hbefore : (body ++ thrift).length = body.length + thrift.length := List.length_append
    exact slice_of_eq hparts (by omega) (by rw [hbefore,length_le]; omega)
  have hread : ofLe (le 4 thrift.length) = thrift.length := ofLe_le_of_lt (by omega)
  rw [parquetFooterStart,hlen,hmagic,hthrift,hread]
  simp only [ne_eq,not_true_eq_false,if_false]
  rw [if_neg (by omega),if_pos (by omega)]
  congr 1
  omega

/-! The Parquet writer. The library that writes the row groups and the metadata, and that finds a
key in the metadata again, is a parameter. -/

/-- A vector column with what the numeric code makes of it: the centroid's values and radius, and
the serialised index with its kind. -/
structure SectionColumn extends MultiVectorBatch where
  centroid : List F32 × F32
  index : Except AilakeError (Bytes × IndexKind)

structure ParquetEngine where
  rowGroups : RecordBatch → SectionColumn → Except AilakeError Bytes
  thrift : RecordBatch → SectionColumn → List (String × String) → Bytes
  thrift_lt : ∀ batch c kv, (thrift batch c kv).length < 2 ^ 32
  keyValue : Bytes → String → Except AilakeError (Option String)

def precisionStr : VectorPrecision → String
  | .f32 => "f32"
  | .f16 => "f16"
  | .i8 => "i8"

def ownKeyValues (batch : RecordBatch) (c : SectionColumn) : List (String × String) :=
  [("ailake.format_version", "1"), ("ailake.precision", precisionStr c.policy.precision),
    ("ailake.metric", metricStr c.policy.metric), ("ailake.record_count", toString batch.numRows),
    ("ailake.vector_column", c.policy.columnName), ("ailake.dim", toString c.policy.dim)] ++
    if c.policy.keepRaw then [] else [("ailake.pq_only", "true")]

section Write

variable (pq : ParquetEngine) (batch : RecordBatch)

/- The row groups do not depend on the key-value pairs. -/
def writeBatchWithKv (c : SectionColumn) (extraKv : List (String × String)) :
    Except AilakeError (Bytes × UInt64) :=
  if c.embeddings.length ≠ batch.numRows then
    .error (.dimensionMismatch (batch.numRows % 2 ^ 32) (c.embeddings.length % 2 ^ 32))
  else
    match pq.rowGroups batch c with
    | .error e => .error e
    | .ok groups => .ok (groups ++ parquetTail (pq.thrift batch c (ownKeyValues batch c ++ extraKv)),
        UInt64.ofNat batch.numRows)

def encodeCentroid (c : List F32 × F32) : Bytes :=
  (c.1.flatMap fun v => le 4 v.toNat) ++ le 4 c.2.toNat

def IndexKind.flags : IndexKind → UInt16
  | .hnsw => 0
  | .ivfPq => flagIndexIvfPq

def sectionHeader (c : SectionColumn) (recordCount : UInt64) (index : Bytes) (kind : IndexKind) :
    AilakeHeader where
  formatVersion := ailakeFormatVersion
  flags := kind.flags
  dim := UInt32.ofNat c.policy.dim
  precision := c.policy.precision
  distanceMetric := c.policy.metric
  recordCount := recordCount
  centroidOffset := UInt64.ofNat headerSize
  centroidLen := UInt64.ofNat (encodeCentroid c.centroid).length
  hnswOffset := UInt64.ofNat (headerSize + (encodeCentroid c.centroid).length)
  hnswLen := UInt64.ofNat index.length

def sectionTrailer (c : SectionColumn) (offset : Nat) (index : Bytes) (kind : IndexKind) :
    AilakeTrailer where
  footerOffset := UInt64.ofNat offset
  footerLen := UInt64.ofNat
    (headerSize + (encodeCentroid c.centroid).length + index.length + trailerSize)
  formatVersion := ailakeFormatVersion
  flags := kind.flags

def buildAilkSection (c : SectionColumn) (recordCount : UInt64) (offset : Nat) :
    Except AilakeError Bytes :=
  match c.index with
  | .error e => .error e
  | .ok (index, kind) => .ok ((sectionHeader c recordCount index kind).toBytes ++
      (encodeCentroid c.centroid ++ (index ++ (sectionTrailer c offset index kind).toBytes)))

def buildSections (recordCount : UInt64) : Nat → List SectionColumn → Except AilakeError (List Bytes)
  | _, [] => .ok []
  | offset, c :: rest =>
    match buildAilkSection c recordCount offset with
    | .error e => .error e
    | .ok ailk =>
      match buildSections recordCount (offset + ailk.length) rest with
      | .error e => .error e
      | .ok sections => .ok (ailk :: sections)

def sectionOffset (start : Nat) (sections : List Bytes) (i : Nat) : Nat :=
  start + (sections.take i).flatten.length

def footerOffsetKey : String := "ailake.footer_offset"

def columnOffsetKey (column : String) : String := "ailake." ++ column ++ ".footer_offset"

def kvFtsOffset : String := "ailake.fts_offset"

/-- The first column goes by the plain key, every other one by its name. -/
def offsetKey (i : Nat) (c : SectionColumn) : String :=
  if i = 0 then footerOffsetKey else columnOffsetKey c.policy.columnName

def offsetKeyValues (start : Nat) (columns : List SectionColumn) (sections : List Bytes) :
    List (String × String) :=
  columns.zipIdx.map fun p => (offsetKey p.2 p.1, toString (sectionOffset start sections p.2))

/- `fts_section`, for the blob that is handed over or built. -/
def ftsSection (blob : Bytes) : Bytes :=
  ailkFtsMagic ++ le 2 1 ++ le 2 0 ++ le 8 (blob.length % 2 ^ 64) ++ blob

def ftsBytes (fts : Option Bytes) : Bytes := (fts.map ftsSection).getD []

def ftsKeyValues (start : Nat) (sections : List Bytes) (fts : Option Bytes) :
    List (String × String) :=
  match fts with
  | none => []
  | some _ => [(kvFtsOffset, toString (start + sections.flatten.length))]

/-- The row groups of the first pass, and the sections built for them. -/
def firstPass (primary : SectionColumn) (columns : List SectionColumn) :
    Except AilakeError (Bytes × Nat × List Bytes) :=
  match writeBatchWithKv pq batch primary [] with
  | .error e => .error e
  | .ok (v1, recordCount) =>
    match parquetFooterStart v1 with
    | .error e => .error e
    | .ok footerStart =>
      match buildSections recordCount footerStart columns with
      | .error e => .error e
      | .ok sections => .ok (v1, footerStart, sections)

/- `write_multi`: only the footer is taken from the second pass. -/
def writeMultiFile (columns : List SectionColumn) (fts : Option Bytes) : Except AilakeError Bytes :=
  match columns with
  | [] => .error (.invalidArgument "write_multi requires at least one vector column")
  | primary :: _ =>
    match firstPass pq batch primary columns with
    | .error e => .error e
    | .ok (v1, footerStart, sections) =>
      match writeBatchWithKv pq batch primary
          (offsetKeyValues footerStart columns sections ++ ftsKeyValues footerStart sections fts) with
      | .error e => .error e
      | .ok (v2, _) =>
        match parquetFooterStart v2 with
        | .error e => .error e
        | .ok footerStart' => .ok (v1.take footerStart ++ (sections.flatten ++
            (ftsBytes fts ++ v2.drop footerStart')))

/- There is no key for an offset and no text section here. -/
def writeMultiSinglePass (columns : List SectionColumn) : Except AilakeError Bytes :=
  match columns with
  | [] => .error (.invalidArgument "write_multi_single_pass requires at least one vector column")
  | primary :: _ =>
    match firstPass pq batch primary columns with
    | .error e => .error e
    | .ok (v1, footerStart, sections) =>
      .ok (v1.take footerStart ++ (sections.flatten ++ v1.drop footerStart))

/-- `write_multi`, or `write_multi_single_pass`, which takes no notice of a text blob. -/
inductive FilePasses where
  | two
  | single
  deriving DecidableEq, Repr

def writeFile (passes : FilePasses) (columns : List SectionColumn) (fts : Option Bytes) :
    Except AilakeError Bytes :=
  match passes with
  | .two => writeMultiFile pq batch columns fts
  | .single => writeMultiSinglePass pq batch columns

end Write

/-! The reader. -/

def checkedAdd (a b : Nat) : Except AilakeError Nat :=
  if a + b < 2 ^ 64 then .ok (a + b) else .error .notAnAilakeFile

section Read

variable (pq : ParquetEngine) (file : Bytes)

def ailkOffsetFromTrailer : Except AilakeError Nat :=
  match parquetFooterStart file with
  | .error e => .error e
  | .ok footerStart =>
    if footerStart < trailerSize then .error .notAnAilakeFile
    else
      match AilakeTrailer.fromBytes (slice file (footerStart - trailerSize) footerStart) with
      | .error e => .error e
      | .ok trailer => .ok trailer.footerOffset.toNat

/-- The offset under a key, or else the answer of `fallback`. -/
def offsetUnder (key : String) (fallback : Except AilakeError Nat) : Except AilakeError Nat :=
  match pq.keyValue file key with
  | .error e => .error e
  | .ok none => fallback
  | .ok (some text) =>
    match parseU64 text with
    | some n => .ok n
    | none => .error .notAnAilakeFile

def ailkOffset : Except AilakeError Nat :=
  offsetUnder pq file footerOffsetKey (ailkOffsetFromTrailer file)

def ailkOffsetForColumn (column : String) : Except AilakeError Nat :=
  offsetUnder pq file (columnOffsetKey column) (ailkOffset pq file)

def readHeaderAtOffset (offset : Nat) : Except AilakeError AilakeHeader :=
  match checkedAdd offset headerSize with
  | .error e => .error e
  | .ok headerEnd =>
    if file.length < headerEnd then .error .notAnAilakeFile
    else AilakeHeader.fromBytes (slice file offset headerEnd)

/-- A part of a section, as `get_centroid` and the index loaders cut it out. -/
def sectionPart (ailkStart : Nat) (offset len : UInt64) : Except AilakeError Bytes :=
  match checkedAdd ailkStart offset.toNat with
  | .error e => .error e
  | .ok start =>
    match checkedAdd start len.toNat with
    | .error e => .error e
    | .ok stop => if file.length < stop then .error .notAnAilakeFile else .ok (slice file start stop)

def centroidBytes (ailkStart : Nat) (h : AilakeHeader) : Except AilakeError Bytes :=
  sectionPart file ailkStart h.centroidOffset h.centroidLen

def indexBytes (ailkStart : Nat) (h : AilakeHeader) : Except AilakeError Bytes :=
  sectionPart file ailkStart h.hnswOffset h.hnswLen

/- The texts of two of the errors go on with what was found. -/
def loadFtsBlob : Except AilakeError (Option Bytes) :=
  match pq.keyValue file kvFtsOffset with
  | .error e => .error e
  | .ok none => .ok none
  | .ok (some text) =>
    match parseU64 text with
    | none => .error (.fts ("invalid FTS section offset '" ++ text ++ "'"))
    | some abs =>
      if file.length < abs + ailkFtsHeaderSize then .error (.fts "AILK_FTS header out of bounds")
      else
        let hdr := slice file abs (abs + ailkFtsHeaderSize)
        if slice hdr 0 4 ≠ ailkFtsMagic then .error (.fts "bad AILK_FTS magic")
        else
          let start := abs + ailkFtsHeaderSize
          let stop := start + ofLe (slice hdr 8 16)
          if file.length < stop then .error (.fts "AILK_FTS blob out of bounds")
          else .ok (some (slice file start stop))

end Read
end AiLake
