import AiLake.FieldIds

/-! `arrow_schema_to_iceberg_update`: the schema that a writer sends with its commit, numbered from
the columns of its own batches. -/
namespace AiLake

open List

inductive VectorPrecision where
  | f32
  | f16
  | i8
  deriving DecidableEq, Repr

def VectorPrecision.bytesPerElement : VectorPrecision → Nat
  | .f32 => 4
  | .f16 => 2
  | .i8 => 1

/-- What the update reads of a `VectorStoragePolicy`. -/
structure VectorColumn where
  columnName : String
  dim : Nat
  precision : VectorPrecision
  deriving DecidableEq, Repr

/- `nestedId` is the last id given; list elements, struct fields, map keys and values take the next
ones in the order they are met. -/
mutual
def arrowTypeToIceberg : DataType → Int → IcebergType × Int
  | .boolean, n => (.primitive "boolean", n)
  | .int8, n | .int16, n | .int32, n | .uint8, n | .uint16, n => (.primitive "int", n)
  | .int64, n | .uint32, n | .uint64, n => (.primitive "long", n)
  | .float16, n | .float32, n => (.primitive "float", n)
  | .float64, n => (.primitive "double", n)
  | .utf8, n | .largeUtf8, n | .utf8View, n => (.primitive "string", n)
  | .binary, n | .largeBinary, n | .binaryView, n => (.primitive "binary", n)
  | .date32, n | .date64, n => (.primitive "date", n)
  | .timestamp _ (some _), n => (.primitive "timestamptz", n)
  | .timestamp _ none, n => (.primitive "timestamp", n)
  | .time32 _, n | .time64 _, n => (.primitive "time", n)
  | .fixedSizeBinary width, n => (.primitive ("fixed[" ++ toString width ++ "]"), n)
  | .decimal128 precision scale, n | .decimal256 precision scale, n =>
    (.primitive ("decimal(" ++ toString precision ++ ", " ++ toString scale ++ ")"), n)
  | .list _ element nullable, n | .largeList _ element nullable, n
  | .listView _ element nullable, n | .fixedSizeList _ element nullable _, n =>
    let r := arrowTypeToIceberg element (n + 1)
    (.list (n + 1) r.1 !nullable, r.2)
  | .struct fields, n =>
    let r := structToIceberg fields n
    (.struct r.1, r.2)
  | .map (.struct entries), n =>
    let key := entryToIceberg ["key", "keys"] entries (n + 2)
    let value := entryToIceberg ["value", "values"] entries key.2.2
    (.map (n + 1) key.1 (n + 2) value.1 value.2.1, value.2.2)
  -- both ids of a map are spent before its entries are looked at
  | .map _, n => (.primitive "binary", n + 2)
  | .other _, n => (.primitive "binary", n)

def structToIceberg : StructFields → Int → IcebergFields × Int
  | .nil, n => (.nil, n)
  | .cons name type nullable rest, n =>
    let t := arrowTypeToIceberg type (n + 1)
    let r := structToIceberg rest t.2
    (.cons (n + 1) name (!nullable) t.1 r.1, r.2)

/-- The type of the first of a map's entry fields with one of these names, and whether it is
required; `binary` when there is none. -/
def entryToIceberg (names : List String) : StructFields → Int → IcebergType × Bool × Int
  | .nil, n => (.primitive "binary", false, n)
  | .cons name type nullable rest, n =>
    if name ∈ names then
      let t := arrowTypeToIceberg type n
      (t.1, !nullable, t.2)
    else entryToIceberg names rest n
end

def batchField (id : Int) (name : String) (type : IcebergType) : IcebergField where
  id := id
  name := name
  required := false
  type := type
  initialDefault := none
  writeDefault := none
  doc := none

def batchFields : List Field → Int → Int → List IcebergField × Int
  | [], _, nestedId => ([], nestedId)
  | f :: rest, id, nestedId =>
    let t := arrowTypeToIceberg f.dataType nestedId
    let r := batchFields rest (id + 1) t.2
    (batchField id f.name t.1 :: r.1, r.2)

/-- The vector columns that the batch itself does not have. -/
def vectorColumns (schema : List Field) (policy : VectorColumn) (extra : List VectorColumn) :
    List VectorColumn :=
  (policy :: extra).filter fun p => p.columnName ∉ schema.map (·.name)

def vectorFields (id : Int) (columns : List VectorColumn) : List IcebergField :=
  columns.zipIdx.map fun p => batchField (id + p.2) p.1.columnName
    (.primitive ("fixed[" ++ toString (p.1.dim * p.1.precision.bytesPerElement) ++ "]"))

def nameMapping (fields : List IcebergField) : String :=
  "[" ++ ",".intercalate (fields.map fun f =>
    "\x7b\"field-id\":" ++ toString f.id ++ ",\"names\":[" ++ jsonString f.name ++ "]\x7d") ++ "]"

/- All top-level ids come first, so the nested ids never meet them. -/
def arrowSchemaToIcebergUpdate (schema : List Field) (policy : VectorColumn)
    (extra : List VectorColumn) : IcebergSchemaUpdate :=
  let vectors := vectorColumns schema policy extra
  let batch := batchFields schema 1 (schema.length + vectors.length)
  let fields := batch.1 ++ vectorFields (schema.length + 1) vectors
  { fields := fields
    lastColumnId := batch.2
    nameMappingJson := nameMapping fields }

/-- Distinct ids after `n`, up to `last`. -/
structure Numbered (n last : Int) (ids : List Int) : Prop where
  le : n ≤ last
  within : ∀ i ∈ ids, n < i ∧ i ≤ last
  nodup : ids.Nodup

namespace Numbered

variable {n k last : Int} {ids ids' : List Int}

theorem nil (h : n ≤ last) : Numbered n last [] := ⟨h, by simp, nodup_nil⟩

theorem cons (h : Numbered (n + 1) last ids) : Numbered n last ((n + 1) :: ids) := by
  have hle := h.le
  refine ⟨by omega, ?_, nodup_cons.2 ⟨?_,h.nodup⟩⟩
  · intro i hi
    rcases mem_cons.1 hi with rfl | hi
    · omega
    · have := h.within i hi
      omega
  · intro hmem
    have := h.within _ hmem
    omega

theorem append (h : Numbered n k ids) (h' : Numbered k last ids') :
    Numbered n last (ids ++ ids') := by
  have hle := h.le
  have hle' := h'.le
  refine ⟨by omega, ?_, ?_⟩
  · intro i hi
    rcases mem_append.1 hi with hi | hi
    · have := h.within i hi
      omega
    · have := h'.within i hi
      omega
  · refine nodup_append.2 ⟨h.nodup,h'.nodup,?_⟩
    intro i hi j hj hij
    have := h.within i hi
    have := h'.within j hj
    omega

end Numbered

theorem ids_within (name : String) (cs : List Column) :
    (cs.map (·.within name)).map (·.id) = cs.map (·.id) := by
  rw [map_map]
  rfl

mutual
theorem numbered_arrowType (d : DataType) (n : Int) :
    Numbered n (arrowTypeToIceberg d n).2 ((arrowTypeToIceberg d n).1.columns.map (·.id)) := by
  cases d with
  | list _ element _ | largeList _ element _ | listView _ element _ | fixedSizeList _ element _ _ =>
    simp only [arrowTypeToIceberg,IcebergType.columns,map_cons,ids_within]
    exact (numbered_arrowType element (n + 1)).cons
  | struct fields => exact numbered_struct fields n
  | map entries =>
    cases entries with
    | struct entries =>
      have hkey := numbered_entry ["key","keys"] entries (n + 2)
      have hvalue := numbered_entry ["value","values"] entries
        (entryToIceberg ["key","keys"] entries (n + 2)).2.2
      simp only [arrowTypeToIceberg,IcebergType.columns,map_cons,map_append,ids_within]
      have hboth := hkey.append hvalue
      have htwo : n + 2 = n + 1 + 1 := by omega
      rw [htwo] at hboth ⊢
      exact hboth.cons.cons
    | _ => exact .nil (Int.le_add_of_nonneg_right (by decide))
  | timestamp _ zone => cases zone <;> exact .nil (Int.le_refl n)
  | _ => exact .nil (Int.le_refl n)

theorem numbered_struct (fields : StructFields) (n : Int) :
    Numbered n (structToIceberg fields n).2 ((structToIceberg fields n).1.columns.map (·.id)) := by
  cases fields with
  | nil => exact .nil (Int.le_refl n)
  | cons name type nullable rest =>
    have htype := numbered_arrowType type (n + 1)
    have hrest := numbered_struct rest (arrowTypeToIceberg type (n + 1)).2
    simp only [structToIceberg,IcebergFields.columns,cons_append,map_cons,
      map_append,ids_within]
    exact (htype.append hrest).cons

theorem numbered_entry (names : List String) (entries : StructFields) (n : Int) :
    Numbered n (entryToIceberg names entries n).2.2
      ((entryToIceberg names entries n).1.columns.map (·.id)) := by
  cases entries with
  | nil => exact .nil (Int.le_refl n)
  | cons name type nullable rest =>
    rw [entryToIceberg]
    split
    · exact numbered_arrowType type n
    · exact numbered_entry names rest n
end

/-- The columns of a batch: top-level ids in the range that was kept free for them, the others
after it. -/
theorem ids_batchFields (schema : List Field) (id nestedId : Int)
    (h : id + schema.length ≤ nestedId + 1) :
    nestedId ≤ (batchFields schema id nestedId).2 ∧
      (∀ c ∈ (batchFields schema id nestedId).1.flatMap (·.columns),
        id ≤ c.id ∧ c.id < id + schema.length ∨
          nestedId < c.id ∧ c.id ≤ (batchFields schema id nestedId).2) ∧
      (((batchFields schema id nestedId).1.flatMap (·.columns)).map (·.id)).Nodup := by
  induction schema generalizing id nestedId with
  | nil => simp [batchFields]
  | cons f rest ih =>
    have htype := numbered_arrowType f.dataType nestedId
    have hle := htype.le
    simp only [length_cons,Int.natCast_add,Int.cast_ofNat_Int] at h ⊢
    obtain ⟨hlast,hin,hnodup⟩ :=
      ih (id + 1) (arrowTypeToIceberg f.dataType nestedId).2 (by omega)
    have hnested : ∀ c ∈ (arrowTypeToIceberg f.dataType nestedId).1.columns,
        nestedId < c.id ∧ c.id ≤ (arrowTypeToIceberg f.dataType nestedId).2 :=
      fun c hc => htype.within c.id (mem_map_of_mem hc)
    simp only [batchFields,flatMap_cons,IcebergField.columns,batchField]
    refine ⟨by omega, ?_, ?_⟩
    · intro c hc
      simp only [cons_append,mem_cons,mem_append,mem_map] at hc
      rcases hc with rfl | ⟨c,hc,rfl⟩ | hc
      · left
        simp only
        omega
      · right
        have := hnested c hc
        simp only [Column.within]
        omega
      · rcases hin c hc with h' | h' <;> omega
    · simp only [cons_append,map_cons,map_append,ids_within,nodup_cons,
        mem_append,mem_map,nodup_append]
      refine ⟨?_,htype.nodup,hnodup,?_⟩
      · rintro (⟨c,hc,he⟩ | ⟨c,hc,he⟩)
        · have := hnested c hc
          omega
        · rcases hin c hc with h' | h' <;> omega
      · intro i hi j hj hij
        obtain ⟨c,hc,rfl⟩ := hi
        obtain ⟨c',hc',rfl⟩ := hj
        have := hnested c hc
        rcases hin c' hc' with h' | h' <;> omega

theorem columns_vectorFields (id : Int) (columns : List VectorColumn) :
    (vectorFields id columns).flatMap (·.columns) =
      columns.zipIdx.map fun p => ⟨id + p.2, [p.1.columnName]⟩ := by
  rw [vectorFields,flatMap_map,map_eq_flatMap]
  rfl

/-- Whatever the batch, the update numbers its columns apart, from 1 to its `last_column_id`. -/
theorem numbered_arrowSchemaToIcebergUpdate (schema : List Field) (policy : VectorColumn)
    (extra : List VectorColumn) :
    Numbered 0 (arrowSchemaToIcebergUpdate schema policy extra).lastColumnId
      ((arrowSchemaToIcebergUpdate schema policy extra).columns.map (·.id)) := by
  set vectors := vectorColumns schema policy extra
  obtain ⟨hlast,hin,hnodup⟩ := ids_batchFields schema 1 (schema.length + vectors.length) (by omega)
  have hcols : (arrowSchemaToIcebergUpdate schema policy extra).columns =
      (batchFields schema 1 (schema.length + vectors.length)).1.flatMap (·.columns) ++
        vectors.zipIdx.map fun p => ⟨schema.length + 1 + p.2, [p.1.columnName]⟩ := by
    rw [← columns_vectorFields,← flatMap_append]
    rfl
  have hvec : ∀ c ∈ vectors.zipIdx.map (fun p => (⟨schema.length + 1 + p.2, [p.1.columnName]⟩ : Column)),
      (schema.length : Int) < c.id ∧ c.id ≤ schema.length + vectors.length := by
    intro c hc
    obtain ⟨⟨v,i⟩,hp,rfl⟩ := mem_map.1 hc
    have hi := snd_lt_of_mem_zipIdx hp
    simp only at hi ⊢
    omega
  have hids : (vectors.zipIdx.map (fun p => (⟨schema.length + 1 + p.2, [p.1.columnName]⟩ : Column))).map
      (·.id) = (vectors.zipIdx.map Prod.snd).map fun (i : Nat) => (schema.length : Int) + 1 + i := by
    rw [map_map,map_map]
    rfl
  rw [hcols]
  refine ⟨?_,?_,?_⟩
  · change 0 ≤ (batchFields schema 1 (schema.length + vectors.length)).2
    omega
  · intro i hi
    obtain ⟨c,hc,rfl⟩ := mem_map.1 hi
    change 0 < c.id ∧ c.id ≤ (batchFields schema 1 (schema.length + vectors.length)).2
    rcases mem_append.1 hc with hc | hc
    · rcases hin c hc with h | h <;> omega
    · have := hvec c hc
      omega
  · rw [map_append,nodup_append]
    refine ⟨hnodup,?_,?_⟩
    · rw [hids,zipIdx_map_snd]
      refine List.Nodup.map (fun i j hij => ?_) nodup_range'
      change (schema.length : Int) + 1 + i = schema.length + 1 + j at hij
      omega
    · intro i hi j hj hij
      obtain ⟨c,hc,rfl⟩ := mem_map.1 hi
      obtain ⟨c',hc',rfl⟩ := mem_map.1 hj
      have := hvec c' hc'
      rcases hin c hc with h | h <;> omega

/-- The ids of an update, nested ones included, are distinct and run up to its last column id. -/
theorem ids_unique_of_schemaUpdate (schema : List Field) (policy : VectorColumn)
    (extra : List VectorColumn) :
    ((arrowSchemaToIcebergUpdate schema policy extra).columns.map (·.id)).Nodup ∧
      ∀ c ∈ (arrowSchemaToIcebergUpdate schema policy extra).columns,
        1 ≤ c.id ∧ c.id ≤ (arrowSchemaToIcebergUpdate schema policy extra).lastColumnId := by
  have hnum := numbered_arrowSchemaToIcebergUpdate schema policy extra
  exact ⟨hnum.nodup, fun c hc => hnum.within c.id (mem_map_of_mem hc)⟩

theorem continues_of_empty {m : IcebergMetadata} {schema : List Field} {policy : VectorColumn}
    {extra : List VectorColumn} (hcur : m.currentColumns = []) (hlast : m.lastColumnId = 0)
    (hpaths : ((arrowSchemaToIcebergUpdate schema policy extra).columns.map (·.path)).Nodup) :
    (arrowSchemaToIcebergUpdate schema policy extra).Continues m := by
  have hnum := numbered_arrowSchemaToIcebergUpdate schema policy extra
  have hid : ∀ c ∈ (arrowSchemaToIcebergUpdate schema policy extra).columns,
      0 < c.id ∧ c.id ≤ (arrowSchemaToIcebergUpdate schema policy extra).lastColumnId :=
    fun c hc => hnum.within c.id (mem_map_of_mem hc)
  refine ⟨fun c hc => .inr ⟨by simp [hcur], hlast ▸ (hid c hc).1⟩, hnum.nodup, hpaths,
    fun c hc => (hid c hc).2, hlast ▸ hnum.le, ?_⟩
  intro _ c hc
  rw [hcur] at hc
  cases hc

end AiLake
