import AiLake.StoreProgram.History
import AiLake.EqualityDelete
import AiLake.SchemaFiller
import AiLake.SchemaHistory

/-! Files older than the schema they are read under. Fields keep their place and id along schema
evolutions; the filler goes by names. -/
namespace AiLake

open StoreProgram List

/-! The fields after a run of evolutions. -/

def EvolveStep (site : Site) (w : Store) (call : SchemaEvolution × Int) (w' : Store) : Prop :=
  ∃ id, (evolveSchema site call.1 call.2).run w = (.ok id, w')

def finalName (evolutions : List SchemaEvolution) (name : String) : String :=
  evolutions.foldl (fun name e => renamedName e.renames name) name

def renamedBy (evolutions : List SchemaEvolution) (f : IcebergField) : IcebergField :=
  { f with name := finalName evolutions f.name }

/-- The fields that evolutions add, under their last names, and the last id they take. -/
def addedAfter (lastColumnId : Int) (evolutions : List SchemaEvolution) : List IcebergField × Int :=
  evolutions.foldl (fun p e =>
    (renameFields e.renames p.1 ++ addedFields p.2 e.adds, p.2 + e.adds.length)) ([], lastColumnId)

structure EvolvedFrom (m₀ : IcebergMetadata) (evolutions : List SchemaEvolution)
    (m : IcebergMetadata) : Prop where
  fields : m.currentFields = m₀.currentFields.map (renamedBy evolutions) ++
    (addedAfter m₀.lastColumnId evolutions).1
  lastColumnId : m.lastColumnId = (addedAfter m₀.lastColumnId evolutions).2
  schemaIds : ∀ s ∈ m.schemas, s.schemaId ≤ m.currentSchemaId

section Evolve

variable {site : Site} {m₀ m m' : IcebergMetadata} {views : List View}

theorem EvolvedFrom.refl (hids : ∀ s ∈ m₀.schemas, s.schemaId ≤ m₀.currentSchemaId) :
    EvolvedFrom m₀ [] m₀ := by
  refine ⟨?_,rfl,hids⟩
  have hid : renamedBy [] = id := rfl
  rw [hid,map_id]
  exact (append_nil _).symm

theorem EvolvedFrom.step {evolutions : List SchemaEvolution} {e : SchemaEvolution} {nowMs : Int}
    (h : EvolvedFrom m₀ evolutions m) (he : m.evolved e nowMs = some m') :
    EvolvedFrom m₀ (evolutions ++ [e]) m' := by
  obtain ⟨s,hid,hfields,hschemas,hcurrent,hlast⟩ := schemas_evolved he
  have hadded : addedAfter m₀.lastColumnId (evolutions ++ [e]) =
      (renameFields e.renames (addedAfter m₀.lastColumnId evolutions).1 ++
        addedFields (addedAfter m₀.lastColumnId evolutions).2 e.adds,
        (addedAfter m₀.lastColumnId evolutions).2 + e.adds.length) := by
    rw [addedAfter,foldl_append]
    rfl
  have hname (f : IcebergField) : renamedBy (evolutions ++ [e]) f =
      { renamedBy evolutions f with name := renamedName e.renames (renamedBy evolutions f).name } := by
    simp [renamedBy,finalName]
  refine ⟨?_,?_,?_⟩
  · rw [currentFields_of_push h.schemaIds hid hschemas hcurrent,hfields,h.fields,h.lastColumnId,
      hadded,renameFields_eq,renameFields_eq,map_append,map_map,append_assoc]
    congr 1
    exact map_congr_left fun f _ => (hname f).symm
  · rw [hadded,hlast,h.lastColumnId]
  · intro t ht
    rw [hschemas,mem_append,mem_singleton] at ht
    rw [hcurrent]
    rcases ht with ht | rfl
    · have := h.schemaIds t ht
      omega
    · exact hid.le

theorem History.evolvedFrom {w₀ w : Store} {calls : List (SchemaEvolution × Int)}
    (hst : Stored site w₀.objects m₀ views)
    (hids : ∀ s ∈ m₀.schemas, s.schemaId ≤ m₀.currentSchemaId)
    (h : History (EvolveStep site) w₀ calls w) :
    ∃ m, Stored site w.objects m views ∧ EvolvedFrom m₀ (calls.map Prod.fst) m := by
  induction h with
  | start => exact ⟨m₀, hst, .refl hids⟩
  | step _ hstep ih =>
    obtain ⟨m,hst,hfrom⟩ := ih
    obtain ⟨id,hrun⟩ := hstep
    obtain ⟨m',he,-,hst'⟩ := run_evolveSchema_ok hst hrun
    refine ⟨m',hst',?_⟩
    rw [map_append]
    exact hfrom.step he

end Evolve

/-! Defaults. -/

/-- The default is of a kind that the filler takes for a column of this type. -/
def JsonValue.taken (type : DataType) (d : JsonValue) : Bool :=
  match type, d with
  | .boolean, .bool _ => true
  | .int32, .int n | .int64, .int n | .date32, .int n | .timestamp .microsecond none, .int n
  | .timestamp .microsecond (some _), .int n => -2 ^ 63 ≤ n ∧ n < 2 ^ 63
  | .float32, .int _ | .float32, .float _ | .float64, .int _ | .float64, .float _ => true
  | .utf8, .str _ => true
  | _, _ => false

/-- The default is a value of the type. -/
def JsonValue.intact (type : DataType) (d : JsonValue) : Bool :=
  match type, d with
  | .int32, .int n | .date32, .int n => -2 ^ 31 ≤ n ∧ n < 2 ^ 31
  | _, _ => d.taken type

/-- The scalar has the value of the JSON default, numbers in a float column being rounded to it. -/
def JsonValue.sameValue (casts : FloatCasts) : JsonValue → Scalar → Bool
  | .bool b, .bool b' => b = b'
  | .int n, .int n' => n = n'
  | .int n, .float32 x => x = casts.narrow (casts.ofInt n)
  | .int n, .float64 x => x = casts.ofInt n
  | .float y, .float32 x => x = casts.narrow y
  | .float y, .float64 x => x = y
  | .str s, .str s' => s = s'
  | _, _ => false

/-- The cell holds the default, or null without one. -/
def ShowsDefault (casts : FloatCasts) (default : Option JsonValue) (cell : Cell) : Prop :=
  match default, cell with
  | none, none => True
  | some d, some v => d.sameValue casts v = true
  | _, _ => False

instance (casts : FloatCasts) (default : Option JsonValue) (cell : Cell) :
    Decidable (ShowsDefault casts default cell) :=
  match default, cell with
  | none, none => .isTrue trivial
  | some d, some v => inferInstanceAs (Decidable (d.sameValue casts v = true))
  | none, some _ | some _, none => .isFalse id

section Defaults

variable {casts : FloatCasts}

theorem wrapI32_eq_iff (n : Int) : wrapI32 n = n ↔ -2 ^ 31 ≤ n ∧ n < 2 ^ 31 := by
  rw [wrapI32,BitVec.toInt_ofInt,Int.bmod_def]
  omega

theorem isSome_makeDefaultArray (type : DataType) (default : Option JsonValue) :
    (makeDefaultArray casts type default).2.isSome = true ↔
      ∃ d ∈ default, d.taken type = true := by
  cases default with
  | none =>
    unfold makeDefaultArray
    split <;> simp
  | some d =>
    unfold makeDefaultArray
    split
    · cases d <;> simp [JsonValue.asBool,JsonValue.taken]
    · cases d <;> simp [JsonValue.asI64,JsonValue.taken]
    · cases d <;> simp [JsonValue.asI64,JsonValue.taken]
    · cases d <;> simp [JsonValue.asF64,JsonValue.taken]
    · cases d <;> simp [JsonValue.asF64,JsonValue.taken]
    · cases d <;> simp [JsonValue.asI64,JsonValue.taken]
    · cases d <;> simp [JsonValue.asI64,JsonValue.taken]
    · cases d <;> simp [JsonValue.asI64,JsonValue.taken]
    · cases d <;> simp [JsonValue.asStr,JsonValue.taken]
    · -- the types that get a column of null strings
      have hnone : d.taken type = false := by
        unfold JsonValue.taken
        split
        all_goals first | rfl | grind
      simp [hnone]

theorem shows_int (f : Int → Int) (d : JsonValue) :
    ShowsDefault casts (some d) (d.asI64.map fun n => .int (f n)) ↔
      ∃ n, d = .int n ∧ (-2 ^ 63 ≤ n ∧ n < 2 ^ 63) ∧ f n = n := by
  cases d with
  | int n =>
    by_cases hn : -2 ^ 63 ≤ n ∧ n < 2 ^ 63
    · have hasI64 : (JsonValue.int n).asI64 = some n := if_pos hn
      rw [hasI64]
      simp only [Option.map_some,ShowsDefault,JsonValue.sameValue,decide_eq_true_eq,
        JsonValue.int.injEq,exists_eq_left',and_iff_right hn]
      exact eq_comm
    · have hasI64 : (JsonValue.int n).asI64 = none := if_neg hn
      rw [hasI64]
      simp only [Option.map_none,ShowsDefault,JsonValue.int.injEq,exists_eq_left',hn,false_and]
  | _ => simp [JsonValue.asI64,ShowsDefault]

theorem intact_iff_of_wraps {type : DataType} (htype : type = .int32 ∨ type = .date32)
    (d : JsonValue) : d.intact type = true ↔
      ∃ n, d = .int n ∧ (-2 ^ 63 ≤ n ∧ n < 2 ^ 63) ∧ wrapI32 n = n := by
  simp only [wrapI32_eq_iff]
  rcases htype with rfl | rfl
  all_goals
    cases d with
    | int n =>
      simp only [JsonValue.intact,decide_eq_true_eq,JsonValue.int.injEq,exists_eq_left']
      omega
    | _ => simp [JsonValue.intact,JsonValue.taken]

theorem intact_iff_of_long {type : DataType} (htype : type = .int64 ∨
    ∃ zone, type = .timestamp .microsecond zone) (d : JsonValue) : d.intact type = true ↔
      ∃ n, d = .int n ∧ (-2 ^ 63 ≤ n ∧ n < 2 ^ 63) ∧ n = n := by
  rcases htype with rfl | ⟨_ | zone, rfl⟩ <;> cases d <;> simp [JsonValue.intact,JsonValue.taken]

theorem shows_makeDefaultArray (type : DataType) (default : Option JsonValue) :
    ShowsDefault casts default (makeDefaultArray casts type default).2 ↔
      ∀ d ∈ default, d.intact type = true := by
  cases default with
  | none =>
    unfold makeDefaultArray
    split <;> simp [ShowsDefault]
  | some d =>
    simp only [Option.mem_some_iff,forall_eq']
    unfold makeDefaultArray
    split
    · cases d <;> simp [JsonValue.asBool,JsonValue.taken,JsonValue.intact,ShowsDefault,
        JsonValue.sameValue]
    · rw [intact_iff_of_wraps (.inl rfl)]
      exact shows_int wrapI32 d
    · rw [intact_iff_of_long (.inl rfl)]
      exact shows_int id d
    · cases d <;> simp [JsonValue.asF64,JsonValue.taken,JsonValue.intact,ShowsDefault,
        JsonValue.sameValue]
    · cases d <;> simp [JsonValue.asF64,JsonValue.taken,JsonValue.intact,ShowsDefault,
        JsonValue.sameValue]
    · rw [intact_iff_of_wraps (.inr rfl)]
      exact shows_int wrapI32 d
    · rw [intact_iff_of_long (.inr ⟨_,rfl⟩)]
      exact shows_int id d
    · rw [intact_iff_of_long (.inr ⟨_,rfl⟩)]
      exact shows_int id d
    · cases d <;> simp [JsonValue.asStr,JsonValue.taken,JsonValue.intact,ShowsDefault,
        JsonValue.sameValue]
    · have hnone : d.intact type = false := by
        unfold JsonValue.intact JsonValue.taken
        split
        all_goals first | rfl | grind
      simp [ShowsDefault,hnone]

end Defaults

/-! What the filler does to a batch. -/

def RecordBatch.names (b : RecordBatch) : List String := b.schema.map (·.name)

def cellUnder (schema : List Field) (name : String) (r : Row) : Option Cell :=
  (r.column schema name).map Prod.snd

namespace SchemaFiller

/-- The types for which the filler builds a column of another type than it declares. -/
def unfillable (type : String) : Bool := trim type ∈ ["time", "binary", "fixed"]

def filledRow (casts : FloatCasts) (missing : List SchemaField) (r : Row) : Row :=
  { r with cells := r.cells ++ missing.map fun sf => (newColumn casts sf).2 }

variable {casts : FloatCasts} {batch filled : RecordBatch} {schemaFields : List SchemaField}

theorem newColumn_type_iff (sf : SchemaField) :
    (newColumn casts sf).1 = (newField sf).dataType ↔ unfillable sf.icebergType = false := by
  unfold newColumn newField unfillable icebergTypeToArrow
  dsimp only
  split <;> simp_all [makeDefaultArray]

theorem hasType_makeDefaultArray {type : DataType} {default : Option JsonValue} {v : Scalar}
    (h : (makeDefaultArray casts type default).2 = some v) :
    v.hasType (makeDefaultArray casts type default).1 = true := by
  unfold makeDefaultArray at h ⊢
  split at h
  all_goals first
    | cases h
    | obtain ⟨x,-,rfl⟩ := Option.map_eq_some_iff.1 h
      rfl

theorem admits_newColumn_iff {sf : SchemaField} (h : unfillable sf.icebergType = false) :
    (newField sf).admits (newColumn casts sf).2 = true ↔
      (sf.required = true → (newColumn casts sf).2.isSome = true) := by
  cases hcell : (newColumn casts sf).2 with
  | none => simp [Field.admits,newField]
  | some v =>
    have htype := hasType_makeDefaultArray hcell
    have heq : (newColumn casts sf).1 = (newField sf).dataType := (newColumn_type_iff sf).2 h
    simp only [Field.admits,Option.isSome_some,implies_true,iff_true,← heq]
    exact htype

theorem fits_append {fields fields' : List Field} {cells cells' : List Cell}
    (h : fits fields cells = true) :
    fits (fields ++ fields') (cells ++ cells') = fits fields' cells' := by
  induction fields generalizing cells with
  | nil =>
    cases cells with
    | nil => rfl
    | cons c cells => cases h
  | cons f fields ih =>
    cases cells with
    | nil => cases h
    | cons c cells =>
      simp only [fits,Bool.and_eq_true] at h
      simp only [cons_append,fits,h.1,Bool.true_and,ih h.2]

theorem length_eq_of_fits {fields : List Field} {cells : List Cell} (h : fits fields cells = true) :
    fields.length = cells.length := by
  induction fields generalizing cells with
  | nil =>
    cases cells with
    | nil => rfl
    | cons c cells => cases h
  | cons f fields ih =>
    cases cells with
    | nil => cases h
    | cons c cells =>
      simp only [fits,Bool.and_eq_true] at h
      simp [ih h.2]

theorem fits_map_iff {fields : List SchemaField} :
    fits (fields.map newField) (fields.map fun sf => (newColumn casts sf).2) = true ↔
      ∀ sf ∈ fields, (newField sf).admits (newColumn casts sf).2 = true := by
  induction fields with
  | nil => simp [fits]
  | cons sf fields ih => simp [fits,ih]

theorem allFit_iff (hmissing : ∀ sf ∈ missing batch schemaFields, unfillable sf.icebergType = false) :
    (batch.rows.map (filledRow casts (missing batch schemaFields))).all (fun r =>
      fits (batch.schema ++ (missing batch schemaFields).map newField) r.cells) = true ↔
      batch.rows = [] ∨ ∀ sf ∈ missing batch schemaFields, sf.required = true →
        (newColumn casts sf).2.isSome = true := by
  have hvalid := all_eq_true.1 batch.valid
  have hrow : ∀ r ∈ batch.rows, fits (batch.schema ++ (missing batch schemaFields).map newField)
      (filledRow casts (missing batch schemaFields) r).cells = true ↔
        ∀ sf ∈ missing batch schemaFields, sf.required = true →
          (newColumn casts sf).2.isSome = true := by
    intro r hr
    rw [filledRow,fits_append (hvalid r hr),fits_map_iff]
    exact forall₂_congr fun sf hsf => admits_newColumn_iff (hmissing sf hsf)
  rw [all_map,all_eq_true]
  cases hrows : batch.rows with
  | nil => simp
  | cons r rows =>
    constructor
    · intro h
      exact .inr ((hrow r (by simp [hrows])).1 (h r mem_cons_self))
    · rintro (h | h) r' hr'
      · cases h
      · exact (hrow r' (hrows ▸ hr')).2 h

theorem exists_fill_iff : (∃ filled, fill casts batch schemaFields = .ok filled) ↔
    (∀ sf ∈ missing batch schemaFields, unfillable sf.icebergType = false) ∧
      (batch.rows = [] ∨ ∀ sf ∈ missing batch schemaFields, sf.required = true →
        (newColumn casts sf).2.isSome = true) := by
  by_cases hnone : missing batch schemaFields = []
  · simp [fill_of_missing_eq_nil hnone,hnone]
  have hempty : ¬(missing batch schemaFields).isEmpty = true := by simpa using hnone
  by_cases htypes : ∀ sf ∈ missing batch schemaFields, unfillable sf.icebergType = false
  · have hall : (missing batch schemaFields).all
        (fun sf => (newColumn casts sf).1 = (newField sf).dataType) = true := by
      rw [all_eq_true]
      intro sf hsf
      rw [decide_eq_true_eq,newColumn_type_iff]
      exact htypes sf hsf
    rw [and_iff_right htypes,← allFit_iff htypes,fill]
    simp only [if_neg hempty,if_pos hall,RecordBatch.tryNew]
    by_cases hfit : (batch.rows.map (filledRow casts (missing batch schemaFields))).all (fun r =>
        fits (batch.schema ++ (missing batch schemaFields).map newField) r.cells) = true
    · have hfit' := hfit
      unfold filledRow at hfit'
      simp only [dif_pos hfit',Except.ok.injEq,exists_eq',hfit]
    · have hfit' := hfit
      unfold filledRow at hfit'
      simp only [dif_neg hfit',reduceCtorEq,exists_false,hfit]
  · have hall : ¬(missing batch schemaFields).all
        (fun sf => (newColumn casts sf).1 = (newField sf).dataType) = true := by
      rw [all_eq_true]
      intro hall
      exact htypes fun sf hsf => (newColumn_type_iff sf).1 (of_decide_eq_true (hall sf hsf))
    rw [fill]
    simp only [if_neg hempty,if_neg hall,reduceCtorEq,exists_false,htypes,false_and]

theorem of_fill (h : fill casts batch schemaFields = .ok filled) :
    filled.schema = batch.schema ++ (missing batch schemaFields).map newField ∧
      filled.rows = batch.rows.map (filledRow casts (missing batch schemaFields)) := by
  unfold fill at h
  simp only at h
  split at h
  · rename_i hnone
    cases h
    rw [List.isEmpty_iff] at hnone
    rw [hnone]
    have hrow : filledRow casts [] = id := by
      funext r
      simp [filledRow]
    rw [hrow,map_id]
    exact ⟨(append_nil _).symm, rfl⟩
  · split at h
    · split at h
      · rename_i hnew
        cases h
        exact RecordBatch.tryNew_eq_some.1 hnew
      · cases h
    · cases h

theorem cellUnder_filledRow {r : Row} (hr : r ∈ batch.rows) (name : String) :
    cellUnder (batch.schema ++ (missing batch schemaFields).map newField) name
      (filledRow casts (missing batch schemaFields) r) =
        if name ∈ batch.names then cellUnder batch.schema name r
        else ((missing batch schemaFields).find? (·.name = name)).map fun sf =>
          (newColumn casts sf).2 := by
  have hlen := length_eq_of_fits (all_eq_true.1 batch.valid r hr)
  have hzip : ((missing batch schemaFields).map newField).zip
      ((missing batch schemaFields).map fun sf => (newColumn casts sf).2) =
        (missing batch schemaFields).map fun sf => (newField sf, (newColumn casts sf).2) := by
    rw [zip_map']
  rw [cellUnder,Row.column,filledRow,zip_append hlen,find?_append,hzip,
    find?_map]
  split
  · rename_i hmem
    obtain ⟨f,hf,rfl⟩ := mem_map.1 hmem
    have hsome : ((batch.schema.zip r.cells).find? fun p => p.1.name = f.name).isSome = true := by
      obtain ⟨i,hi,rfl⟩ := getElem_of_mem hf
      have hi' : i < r.cells.length := hlen ▸ hi
      refine find?_isSome.2 ⟨(batch.schema[i], r.cells[i]), ?_, by simp⟩
      rw [mem_iff_getElem]
      exact ⟨i, by simp [hi,hi'], by simp⟩
    obtain ⟨p,hp⟩ := Option.isSome_iff_exists.1 hsome
    rw [cellUnder,Row.column,hp,Option.some_or]
  · rename_i hmem
    have hnone : (batch.schema.zip r.cells).find? (fun p => p.1.name = name) = none := by
      refine find?_eq_none.2 fun p hp hname => hmem ?_
      rw [decide_eq_true_eq] at hname
      exact mem_map.2 ⟨p.1, (of_mem_zip hp).1, hname⟩
    rw [hnone,Option.none_or,Option.map_map]
    rfl

end SchemaFiller

/-! Old files under the current schema. -/

def IcebergField.toSchemaField (f : IcebergField) : SchemaField where
  id := f.id
  name := f.name
  required := f.required
  icebergType := f.type.text
  initialDefault := f.initialDefault.filter (· ≠ .null)
  writeDefault := f.writeDefault.filter (· ≠ .null)

theorem schemaFields_eq (m : IcebergMetadata) :
    m.schemaFields = m.currentFields.map (·.toSchemaField) := by
  unfold IcebergMetadata.schemaFields IcebergMetadata.currentFields
  cases m.currentSchema? <;> rfl

def firstNamed (fields : List IcebergField) (name : String) : Option IcebergField :=
  fields.find? (·.name = name)

/-- Every column that the file was written with has its values, whatever its name is now, and every
later column has its default. -/
structure ReadsOld (casts : FloatCasts) (batch : RecordBatch) (old : List IcebergField)
    (evolutions : List SchemaEvolution) (added : List IcebergField) (filled : RecordBatch) :
    Prop where
  kept : List.Forall₂ (fun r r' => ∀ f ∈ old, f.name ∈ batch.names →
    cellUnder filled.schema (finalName evolutions f.name) r' = cellUnder batch.schema f.name r)
      batch.rows filled.rows
  added : ∀ r' ∈ filled.rows, ∀ g ∈ added, ∃ cell, cellUnder filled.schema g.name r' = some cell ∧
    ShowsDefault casts g.toSchemaField.initialDefault cell

/-- No column needs more than its name: those the file lacks have a type and a default that can be
filled in, those under another name hold what would be filled in, and a name that now stands for
another column stands for the same values. Of several columns with one name, the first is found. -/
structure Readable (casts : FloatCasts) (batch : RecordBatch) (old : List IcebergField)
    (evolutions : List SchemaEvolution) (added : List IcebergField) : Prop where
  types : ∀ f ∈ old.map (renamedBy evolutions) ++ added, f.name ∉ batch.names →
    SchemaFiller.unfillable f.type.text = false
  required : batch.rows = [] ∨ ∀ f ∈ old.map (renamedBy evolutions) ++ added,
    f.name ∉ batch.names → f.required = true →
      ∃ d ∈ f.toSchemaField.initialDefault, d.taken (icebergTypeToArrow f.type.text) = true
  kept : ∀ f ∈ old, f.name ∈ batch.names → ∀ r ∈ batch.rows,
    if finalName evolutions f.name ∈ batch.names then
      cellUnder batch.schema (finalName evolutions f.name) r = cellUnder batch.schema f.name r
    else ∃ h ∈ firstNamed (old.map (renamedBy evolutions) ++ added) (finalName evolutions f.name),
      cellUnder batch.schema f.name r = some (SchemaFiller.newColumn casts h.toSchemaField).2
  added : ∀ g ∈ added, ∀ r ∈ batch.rows,
    if g.name ∈ batch.names then ∃ cell, cellUnder batch.schema g.name r = some cell ∧
      ShowsDefault casts g.toSchemaField.initialDefault cell
    else ∃ h ∈ firstNamed (old.map (renamedBy evolutions) ++ added) g.name,
      if h = g then
        ∀ d ∈ g.toSchemaField.initialDefault, d.intact (icebergTypeToArrow g.type.text) = true
      else ShowsDefault casts g.toSchemaField.initialDefault
        (SchemaFiller.newColumn casts h.toSchemaField).2

section Read

open SchemaFiller

variable {casts : FloatCasts} {batch : RecordBatch} {fields : List IcebergField}

theorem mem_missing_iff {sf : SchemaField} :
    sf ∈ missing batch (fields.map (·.toSchemaField)) ↔
      ∃ f ∈ fields, f.name ∉ batch.names ∧ f.toSchemaField = sf := by
  simp only [missing,mem_filter,mem_map,decide_eq_true_eq]
  constructor
  · rintro ⟨⟨f,hf,rfl⟩,hname⟩
    exact ⟨f, hf, fun h => hname (mem_map.1 h), rfl⟩
  · rintro ⟨f,hf,hname,rfl⟩
    exact ⟨⟨f,hf,rfl⟩, fun h => hname (mem_map.2 h)⟩

theorem find?_missing {name : String} (hname : name ∉ batch.names) :
    (missing batch (fields.map (·.toSchemaField))).find? (·.name = name) =
      (firstNamed fields name).map (·.toSchemaField) := by
  rw [missing,find?_filter,find?_map,firstNamed]
  congr 2
  funext f
  simp only [Function.comp_apply,decide_eq_true_eq]
  refine decide_eq_decide.2 (and_iff_right_of_imp ?_)
  rintro rfl
  exact hname

theorem exists_fill_fields_iff :
    (∃ filled, fill casts batch (fields.map (·.toSchemaField)) = .ok filled) ↔
      (∀ f ∈ fields, f.name ∉ batch.names → unfillable f.type.text = false) ∧
        (batch.rows = [] ∨ ∀ f ∈ fields, f.name ∉ batch.names → f.required = true →
          ∃ d ∈ f.toSchemaField.initialDefault,
            d.taken (icebergTypeToArrow f.type.text) = true) := by
  rw [exists_fill_iff]
  simp only [mem_missing_iff,newColumn,isSome_makeDefaultArray]
  refine and_congr ?_ (or_congr_right ?_)
  · constructor
    · intro h f hf hname
      exact h f.toSchemaField ⟨f,hf,hname,rfl⟩
    · rintro h _ ⟨f,hf,hname,rfl⟩
      exact h f hf hname
  · constructor
    · intro h f hf hname
      exact h f.toSchemaField ⟨f,hf,hname,rfl⟩
    · rintro h _ ⟨f,hf,hname,rfl⟩
      exact h f hf hname

theorem cellUnder_of_fill {filled : RecordBatch}
    (hfill : fill casts batch (fields.map (·.toSchemaField)) = .ok filled)
    {r : Row} (hr : r ∈ batch.rows) (name : String) :
    cellUnder filled.schema name
      (filledRow casts (missing batch (fields.map (·.toSchemaField))) r) =
        if name ∈ batch.names then cellUnder batch.schema name r
        else (firstNamed fields name).map fun h => (newColumn casts h.toSchemaField).2 := by
  rw [(of_fill hfill).1,cellUnder_filledRow hr]
  split
  · rfl
  · rename_i hname
    rw [find?_missing hname,Option.map_map]
    rfl

variable {old added : List IcebergField} {evolutions : List SchemaEvolution}

theorem exists_firstNamed {f : IcebergField} (hf : f ∈ fields) :
    ∃ h, firstNamed fields f.name = some h :=
  Option.isSome_iff_exists.1 (find?_isSome.2 ⟨f, hf, by simp⟩)

theorem kept_iff {filled : RecordBatch}
    (hfill : fill casts batch ((old.map (renamedBy evolutions) ++ added).map (·.toSchemaField)) =
      .ok filled) {f : IcebergField} (hf : f ∈ old) {r : Row} (hr : r ∈ batch.rows) :
    cellUnder filled.schema (finalName evolutions f.name) (filledRow casts (missing batch
      ((old.map (renamedBy evolutions) ++ added).map (·.toSchemaField))) r) =
        cellUnder batch.schema f.name r ↔
      if finalName evolutions f.name ∈ batch.names then
        cellUnder batch.schema (finalName evolutions f.name) r = cellUnder batch.schema f.name r
      else ∃ h ∈ firstNamed (old.map (renamedBy evolutions) ++ added)
          (finalName evolutions f.name),
        cellUnder batch.schema f.name r = some (newColumn casts h.toSchemaField).2 := by
  have hmem : renamedBy evolutions f ∈ old.map (renamedBy evolutions) ++ added :=
    mem_append_left _ (mem_map_of_mem hf)
  obtain ⟨h,hfirst⟩ := exists_firstNamed hmem
  change firstNamed _ (finalName evolutions f.name) = some h at hfirst
  rw [cellUnder_of_fill hfill hr,hfirst]
  split
  · rfl
  · simp only [Option.map_some,Option.mem_def,Option.some.injEq,exists_eq_left']
    exact eq_comm

theorem added_iff {filled : RecordBatch}
    (hfill : fill casts batch (fields.map (·.toSchemaField)) = .ok filled)
    {g : IcebergField} (hg : g ∈ fields) {r : Row} (hr : r ∈ batch.rows) :
    (∃ cell, cellUnder filled.schema g.name
      (filledRow casts (missing batch (fields.map (·.toSchemaField))) r) = some cell ∧
        ShowsDefault casts g.toSchemaField.initialDefault cell) ↔
      if g.name ∈ batch.names then ∃ cell, cellUnder batch.schema g.name r = some cell ∧
        ShowsDefault casts g.toSchemaField.initialDefault cell
      else ∃ h ∈ firstNamed fields g.name,
        if h = g then
          ∀ d ∈ g.toSchemaField.initialDefault, d.intact (icebergTypeToArrow g.type.text) = true
        else ShowsDefault casts g.toSchemaField.initialDefault (newColumn casts h.toSchemaField).2 := by
  obtain ⟨h,hfirst⟩ := exists_firstNamed hg
  rw [cellUnder_of_fill hfill hr,hfirst]
  split
  · rfl
  · simp only [Option.map_some,Option.mem_def,Option.some.injEq,exists_eq_left']
    split
    · rename_i heq
      rw [heq]
      exact shows_makeDefaultArray _ _
    · rfl

/-- An old file is read well under the schema that a run of evolutions leads to, exactly when no
column needs more than its name. -/
theorem fill_readsOld_iff {site : Site} {m₀ m : IcebergMetadata} {views : List View}
    {w₀ w : Store} {calls : List (SchemaEvolution × Int)}
    (hst : Stored site w₀.objects m₀ views)
    (hids : ∀ s ∈ m₀.schemas, s.schemaId ≤ m₀.currentSchemaId)
    (h : History (EvolveStep site) w₀ calls w) (hload : Loads site w m) :
    let evolutions := calls.map Prod.fst
    let added := (addedAfter m₀.lastColumnId evolutions).1
    (∃ filled, fill casts batch m.schemaFields = .ok filled ∧
      ReadsOld casts batch m₀.currentFields evolutions added filled) ↔
        Readable casts batch m₀.currentFields evolutions added := by
  intro evolutions added
  obtain ⟨m',hst',hfrom⟩ := History.evolvedFrom hst hids h
  cases hload.eq_of_stored hst'
  rw [schemaFields_eq,hfrom.fields]
  constructor
  · rintro ⟨filled,hfill,hkept,hadded⟩
    obtain ⟨htypes,hrequired⟩ := exists_fill_fields_iff.1 ⟨filled,hfill⟩
    rw [(of_fill hfill).2] at hkept hadded
    rw [forall₂_map_right_iff,forall₂_same] at hkept
    refine ⟨htypes, hrequired, fun f hf hname r hr => ?_, fun g hg r hr => ?_⟩
    · exact (kept_iff hfill hf hr).1 (hkept r hr f hf hname)
    · exact (added_iff hfill (mem_append_right _ hg) hr).1
        (hadded _ (mem_map_of_mem hr) g hg)
  · rintro ⟨htypes,hrequired,hkept,hadded⟩
    obtain ⟨filled,hfill⟩ := exists_fill_fields_iff.2 ⟨htypes,hrequired⟩
    refine ⟨filled,hfill,?_,?_⟩
    · rw [(of_fill hfill).2,forall₂_map_right_iff,forall₂_same]
      exact fun r hr f hf hname => (kept_iff hfill hf hr).2 (hkept f hf hname r hr)
    · rw [(of_fill hfill).2]
      intro r' hr' g hg
      obtain ⟨r,hr,rfl⟩ := mem_map.1 hr'
      exact (added_iff hfill (mem_append_right _ hg) hr).2 (hadded g hg r hr)

end Read

/-! A table with one text column, and a file from its beginning. -/

def demoTextMetadata : IcebergMetadata := .new demoSite.root 2 (some "text") none [] [] 0

def demoTextTable : Store := ((createTable demoSite demoTextMetadata).run emptyStore).2

theorem stored_demoTextTable : Stored demoSite demoTextTable.objects demoTextMetadata [] :=
  (run_createTable (fun _ => rfl) (fun _ => rfl) rfl rfl).2

def demoTextBatch : RecordBatch where
  schema := [⟨"text", .utf8, true⟩]
  rows := [⟨0, [some (.str "a")]⟩]
  valid := by decide

def demoCasts : FloatCasts := ⟨fun _ => 0, fun _ => 0⟩

def demoEvolution (renames : List RenameColumnRequest) (adds : List AddColumnRequest) :
    SchemaEvolution × Int := (⟨renames, adds, []⟩, 0)

def demoAdd (name type : String) (default : Option JsonValue) : AddColumnRequest where
  name := name
  icebergType := type
  required := false
  initialDefault := default
  writeDefault := none
  doc := none

def demoEvolved (call : SchemaEvolution × Int) : Store :=
  ((evolveSchema demoSite call.1 call.2).run demoTextTable).2

theorem demoEvolved_history {call : SchemaEvolution × Int}
    (h : ((evolveSchema demoSite call.1 call.2).run demoTextTable).1 = .ok 1) :
    History (EvolveStep demoSite) demoTextTable [call] (demoEvolved call) :=
  .step .start ⟨1, Prod.ext h rfl⟩

theorem fill_readsOld_demoAdd :
    let call := demoEvolution [] [demoAdd "score" "float" (some (.int 1))]
    ∃ filled, SchemaFiller.fill demoCasts demoTextBatch (demoLoad (demoEvolved call)).schemaFields =
      .ok filled ∧ ReadsOld demoCasts demoTextBatch demoTextMetadata.currentFields [call.1]
        (addedAfter demoTextMetadata.lastColumnId [call.1]).1 filled := by
  intro call
  refine (fill_readsOld_iff stored_demoTextTable (by decide) (demoEvolved_history (by decide))
    (loads_demoLoad (by decide))).2 ⟨by decide, .inr (by decide), by decide, ?_⟩
  intro g hg r hr
  have hg' : g = addedField 2 (demoAdd "score" "float" (some (.int 1))) := mem_singleton.1 hg
  rw [hg',if_neg (by decide)]
  exact ⟨_, rfl, by decide⟩

/-- A renamed column is null in every file from before. -/
theorem fill_readsOld_demoRename :
    let call := demoEvolution [⟨"text","body"⟩] []
    History (EvolveStep demoSite) demoTextTable [call] (demoEvolved call) ∧
    Loads demoSite (demoEvolved call) (demoLoad (demoEvolved call)) ∧
    ¬∃ filled, SchemaFiller.fill demoCasts demoTextBatch
      (demoLoad (demoEvolved call)).schemaFields = .ok filled ∧
        ReadsOld demoCasts demoTextBatch demoTextMetadata.currentFields [call.1]
          (addedAfter demoTextMetadata.lastColumnId [call.1]).1 filled := by
  intro call
  refine ⟨demoEvolved_history (by decide), loads_demoLoad (by decide), ?_⟩
  rintro ⟨filled,hfill,hkept,-⟩
  obtain ⟨hschema,hrows⟩ := SchemaFiller.of_fill hfill
  rw [hschema,hrows,forall₂_map_right_iff,forall₂_same] at hkept
  revert hkept
  decide

end AiLake
