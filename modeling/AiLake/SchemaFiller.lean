import AiLake.Provider
import Mathlib.Algebra.Group.Int.Defs

/-! `schema_filler.rs`: a file that is older than a column is read as if it had the column, filled
with the column's initial default. -/
namespace AiLake

/-- `i64 as f64` and `f64 as f32`. -/
structure FloatCasts where
  ofInt : Int → F64
  narrow : F64 → F32

/- `char::is_whitespace`. -/
def isWhitespace (c : Char) : Bool :=
  let n := c.toNat
  (9 ≤ n ∧ n ≤ 13) ∨ n ∈ [0x20, 0x85, 0xA0, 0x1680, 0x2028, 0x2029, 0x202F, 0x205F, 0x3000] ∨
    (0x2000 ≤ n ∧ n ≤ 0x200A)

def trim (s : String) : String :=
  String.ofList ((s.toList.dropWhile isWhitespace).reverse.dropWhile isWhitespace).reverse

def icebergTypeToArrow (type : String) : DataType :=
  match trim type with
  | "boolean" => .boolean
  | "int" | "integer" => .int32
  | "long" => .int64
  | "float" => .float32
  | "double" => .float64
  | "date" => .date32
  | "time" => .time64 .microsecond
  | "timestamp" => .timestamp .microsecond none
  | "timestamptz" => .timestamp .microsecond (some "UTC")
  | "string" | "uuid" => .utf8
  | "binary" | "fixed" => .binary
  | _ => .utf8

namespace JsonValue

def asBool : JsonValue → Option Bool
  | .bool b => some b
  | _ => none

/- A number past the range of `i64` is kept as a `u64`. -/
def asI64 : JsonValue → Option Int
  | .int n => if -2 ^ 63 ≤ n ∧ n < 2 ^ 63 then some n else none
  | _ => none

def asF64 (casts : FloatCasts) : JsonValue → Option F64
  | .int n => some (casts.ofInt n)
  | .float x => some x
  | _ => none

def asStr : JsonValue → Option String
  | .str s => some s
  | _ => none

end JsonValue

/- `i64 as i32`. -/
def wrapI32 (n : Int) : Int := (BitVec.ofInt 32 n).toInt

/-- The type of the array that `make_default_array` builds, and the cell that fills it. -/
def makeDefaultArray (casts : FloatCasts) (type : DataType) (default : Option JsonValue) :
    DataType × Cell :=
  match type with
  | .boolean => (.boolean, (default.bind (·.asBool)).map .bool)
  | .int32 => (.int32, (default.bind (·.asI64)).map fun n => .int (wrapI32 n))
  | .int64 => (.int64, (default.bind (·.asI64)).map .int)
  | .float32 => (.float32, (default.bind (·.asF64 casts)).map fun x => .float32 (casts.narrow x))
  | .float64 => (.float64, (default.bind (·.asF64 casts)).map .float64)
  | .date32 => (.date32, (default.bind (·.asI64)).map fun n => .int (wrapI32 n))
  | .timestamp .microsecond none =>
    (.timestamp .microsecond none, (default.bind (·.asI64)).map .int)
  | .timestamp .microsecond (some _) =>
    (.timestamp .microsecond (some "UTC"), (default.bind (·.asI64)).map .int)
  | .utf8 => (.utf8, (default.bind (·.asStr)).map .str)
  | _ => (.utf8, none)

namespace SchemaFiller

def missing (batch : RecordBatch) (schemaFields : List SchemaField) : List SchemaField :=
  schemaFields.filter fun sf => sf.name ∉ batch.schema.map (·.name)

def newField (sf : SchemaField) : Field := ⟨sf.name, icebergTypeToArrow sf.icebergType, !sf.required⟩

def newColumn (casts : FloatCasts) (sf : SchemaField) : DataType × Cell :=
  makeDefaultArray casts (icebergTypeToArrow sf.icebergType) sf.initialDefault

/- `try_new` refuses an array of another type than its field's, and a null in a required one. -/
def fill (casts : FloatCasts) (batch : RecordBatch) (schemaFields : List SchemaField) :
    Except AilakeError RecordBatch :=
  let missing := missing batch schemaFields
  if missing.isEmpty then .ok batch
  else if missing.all fun sf => (newColumn casts sf).1 = (newField sf).dataType then
    let cells := missing.map fun sf => (newColumn casts sf).2
    match RecordBatch.tryNew (batch.schema ++ missing.map newField)
      (batch.rows.map fun r => { r with cells := r.cells ++ cells }) with
    | some filled => .ok filled
    | none => .error (.arrow "Column declared as non-nullable but contains null values")
  else .error (.arrow "column types must match schema types")

variable {casts : FloatCasts} {batch filled : RecordBatch} {schemaFields : List SchemaField}

theorem fill_of_missing_eq_nil (h : missing batch schemaFields = []) :
    fill casts batch schemaFields = .ok batch := by
  simp [fill,h]

end SchemaFiller
end AiLake
