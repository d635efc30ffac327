import Mathlib.Data.List.Basic

/-! Arrow record batches. Every row carries an identity that no operation reads: it tells one row of
a table history from another. -/
namespace AiLake

/-- Floats are carried as bit patterns. -/
abbrev F32 := BitVec 32
abbrev F64 := BitVec 64

inductive TimeUnit where
  | second
  | millisecond
  | microsecond
  | nanosecond
  deriving DecidableEq, Repr

mutual
inductive DataType where
  | boolean
  | int8
  | int16
  | int32
  | int64
  | uint8
  | uint16
  | uint32
  | uint64
  | float16
  | float32
  | float64
  | utf8
  | largeUtf8
  | utf8View
  | binary
  | largeBinary
  | binaryView
  | fixedSizeBinary (width : Nat)
  | date32
  | date64
  | time32 (unit : TimeUnit)
  | time64 (unit : TimeUnit)
  | timestamp (unit : TimeUnit) (zone : Option String)
  | decimal128 (precision : Nat) (scale : Int)
  | decimal256 (precision : Nat) (scale : Int)
  | list (name : String) (element : DataType) (nullable : Bool)
  | largeList (name : String) (element : DataType) (nullable : Bool)
  | listView (name : String) (element : DataType) (nullable : Bool)
  | fixedSizeList (name : String) (element : DataType) (nullable : Bool) (width : Nat)
  | struct (fields : StructFields)
  | map (entries : DataType)
  | other (name : String)
  deriving DecidableEq, Repr

inductive StructFields where
  | nil
  | cons (name : String) (type : DataType) (nullable : Bool) (rest : StructFields)
  deriving DecidableEq, Repr
end

structure Field where
  name : String
  dataType : DataType
  nullable : Bool
  deriving DecidableEq, Repr

inductive Scalar where
  | bool (b : Bool)
  | int (n : Int)
  | float32 (x : F32)
  | float64 (x : F64)
  | str (s : String)
  | bytes (b : List UInt8)
  | nested (text : String)
  deriving DecidableEq, Repr

/-- The values an array of a given type holds. Temporal and decimal arrays hold integers. -/
def Scalar.hasType : Scalar → DataType → Bool
  | .bool _, .boolean => true
  | .int _, .int8 | .int _, .int16 | .int _, .int32 | .int _, .int64 => true
  | .int n, .uint8 | .int n, .uint16 | .int n, .uint32 | .int n, .uint64 => 0 ≤ n
  | .int _, .date32 | .int _, .date64 | .int _, .time32 _ | .int _, .time64 _ => true
  | .int _, .timestamp _ _ | .int _, .decimal128 _ _ | .int _, .decimal256 _ _ => true
  | .float32 _, .float16 | .float32 _, .float32 => true
  | .float64 _, .float64 => true
  | .str _, .utf8 | .str _, .largeUtf8 | .str _, .utf8View => true
  | .bytes _, .binary | .bytes _, .largeBinary | .bytes _, .binaryView => true
  | .bytes b, .fixedSizeBinary n => b.length = n
  | .nested _, .list _ _ _ | .nested _, .largeList _ _ _ | .nested _, .fixedSizeList _ _ _ _ => true
  | .nested _, .listView _ _ _ | .nested _, .struct _ | .nested _, .map _ | .nested _, .other _ => true
  | _, _ => false

/-- `none` is a null slot. -/
abbrev Cell := Option Scalar

structure Row where
  id : Nat
  cells : List Cell
  deriving DecidableEq, Repr

def Field.admits (f : Field) : Cell → Bool
  | none => f.nullable
  | some v => v.hasType f.dataType

def fits : List Field → List Cell → Bool
  | [], [] => true
  | f :: fs, c :: cs => f.admits c && fits fs cs
  | _, _ => false

theorem length_of_fits {schema : List Field} {cells : List Cell} (h : fits schema cells) :
    cells.length = schema.length := by
  induction schema generalizing cells with
  | nil =>
    cases cells with
    | nil => rfl
    | cons c cells => cases h
  | cons f schema ih =>
    cases cells with
    | nil => cases h
    | cons c cells => exact congrArg (· + 1) (ih (Bool.and_eq_true_iff.1 h).2)

theorem zip_take_length {α β : Type} (l : List α) (l' : List β) :
    l.zip (l'.take l.length) = l.zip l' := by
  induction l generalizing l' with
  | nil => rfl
  | cons a l ih =>
    cases l' with
    | nil => rfl
    | cons b l' => exact congrArg ((a, b) :: ·) (ih l')

/-- A batch: every row has one admissible cell for each field of the schema. -/
structure RecordBatch where
  schema : List Field
  rows : List Row
  valid : rows.all (fun r => fits schema r.cells) = true
  deriving DecidableEq

namespace RecordBatch

/- `RecordBatch::try_new`, which every constructed batch goes through. -/
def tryNew (schema : List Field) (rows : List Row) : Option RecordBatch :=
  if h : rows.all (fun r => fits schema r.cells) = true then some ⟨schema, rows, h⟩ else none

def numRows (b : RecordBatch) : Nat := b.rows.length

/- `filter_record_batch` with the mask `keep`, a predicate on the row's position and the row. -/
def filterRows (b : RecordBatch) (keep : Nat → Row → Bool) : RecordBatch where
  schema := b.schema
  rows := (b.rows.zipIdx.filter fun p => keep p.2 p.1).map Prod.fst
  valid := by
    have h := b.valid
    rw [List.all_eq_true] at h ⊢
    intro r hr
    obtain ⟨p, hp, rfl⟩ := List.mem_map.1 hr
    exact h _ (List.fst_mem_of_mem_zipIdx (List.mem_of_mem_filter hp))

theorem rows_filterRows (b : RecordBatch) (keep : Nat → Row → Bool) :
    (b.filterRows keep).rows = (b.rows.zipIdx.filter fun p => keep p.2 p.1).map Prod.fst := rfl

theorem tryNew_eq_some {schema : List Field} {rows : List Row} {b : RecordBatch} :
    tryNew schema rows = some b ↔ b.schema = schema ∧ b.rows = rows := by
  unfold tryNew
  constructor
  · intro h
    split at h
    · cases h
      exact ⟨rfl,rfl⟩
    · cases h
  · rintro ⟨rfl,rfl⟩
    exact dif_pos b.valid

end RecordBatch

/- `arrow_select::concat::concat_batches`: columns are taken by position, their types must agree,
a batch with too few columns aborts the job. -/
def sameTypes : List Field → List Field → Bool
  | [], _ => true
  | f :: fs, g :: gs => f.dataType = g.dataType && sameTypes fs gs
  | _ :: _, [] => false

def concatBatches (schema : List Field) (batches : List RecordBatch) : Option RecordBatch :=
  if batches.all (fun b => sameTypes schema b.schema) then
    RecordBatch.tryNew schema
      (batches.flatMap fun b => b.rows.map fun r => { r with cells := r.cells.take schema.length })
  else none

theorem rows_of_concatBatches {schema : List Field} {batches : List RecordBatch} {b : RecordBatch}
    (h : concatBatches schema batches = some b) :
    b.rows = batches.flatMap fun b' =>
      b'.rows.map fun r => { r with cells := r.cells.take schema.length } := by
  unfold concatBatches at h
  split at h
  · exact (RecordBatch.tryNew_eq_some.1 h).2
  · cases h

end AiLake
