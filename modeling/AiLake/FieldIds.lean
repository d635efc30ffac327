import Mathlib.Data.List.Nodup
import AiLake.Metadata

/-! Columns and their field ids. What one commit or one schema evolution does to them is said here;
whole histories follow in `SchemaHistory`. -/
namespace AiLake

open List

/-- A column, nested ones included: its field id, and its path from the top of the schema. -/
structure Column where
  id : Int
  path : List String
  deriving DecidableEq, Repr

def Column.within (name : String) (c : Column) : Column := { c with path := name :: c.path }

def Column.renamed (rename : String → String) (c : Column) : Column :=
  { c with path := match c.path with
    | [] => []
    | name :: rest => rename name :: rest }

@[simp] theorem renamed_id (c : Column) : c.renamed id = c := by
  obtain ⟨_, _ | _⟩ := c <;> rfl

@[simp] theorem Column.id_renamed (rename : String → String) (c : Column) :
    (c.renamed rename).id = c.id := rfl

mutual
def IcebergType.columns : IcebergType → List Column
  | .primitive _ => []
  | .list id element _ => ⟨id, ["element"]⟩ :: element.columns.map (·.within "element")
  | .struct fields => fields.columns
  | .map keyId key valueId value _ =>
    ⟨keyId, ["key"]⟩ :: ⟨valueId, ["value"]⟩ ::
      (key.columns.map (·.within "key") ++ value.columns.map (·.within "value"))

def IcebergFields.columns : IcebergFields → List Column
  | .nil => []
  | .cons id name _ type rest =>
    ⟨id, [name]⟩ :: type.columns.map (·.within name) ++ rest.columns
end

def IcebergField.columns (f : IcebergField) : List Column :=
  ⟨f.id, [f.name]⟩ :: f.type.columns.map (·.within f.name)

def IcebergSchema.columns (s : IcebergSchema) : List Column := s.fields.flatMap (·.columns)

def IcebergSchemaUpdate.columns (u : IcebergSchemaUpdate) : List Column :=
  u.fields.flatMap (·.columns)

namespace IcebergMetadata

def columns (m : IcebergMetadata) : List Column := m.schemas.flatMap (·.columns)

def currentFields (m : IcebergMetadata) : List IcebergField :=
  (m.currentSchema?.map (·.fields)).getD []

def currentColumns (m : IcebergMetadata) : List Column := m.currentFields.flatMap (·.columns)

/-- A commit patches the first schema of the list; this is the one in use. -/
def FirstIsCurrent (m : IcebergMetadata) : Prop :=
  m.schemas.head?.map (·.schemaId) = some m.currentSchemaId

structure FieldIdsSound (m : IcebergMetadata) : Prop where
  schemaIds : ∀ s ∈ m.schemas, s.schemaId ≤ m.currentSchemaId
  distinct : ∀ s ∈ m.schemas, (s.columns.map (·.id)).Nodup
  bounded : ∀ c ∈ m.columns, c.id ≤ m.lastColumnId
  paths : (m.currentColumns.map (·.path)).Nodup

end IcebergMetadata

/-- One call keeps the field ids: `earlier` are the metadata from before, `rename` is what the call
does to column names. -/
structure FieldIdsKept (earlier : List IcebergMetadata) (m : IcebergMetadata)
    (rename : String → String) (m' : IcebergMetadata) : Prop where
  keepsId : ∀ c ∈ m.currentColumns, ∀ c' ∈ m'.currentColumns,
    c'.path = (c.renamed rename).path → c'.id = c.id
  keepsColumn : ∀ c' ∈ m'.columns,
    (∃ c ∈ m.columns, c.id = c'.id ∧ (c'.path = c.path ∨ c'.path = (c.renamed rename).path)) ∨
      ∀ e ∈ m :: earlier, ∀ c ∈ e.columns, c.id ≠ c'.id
  distinct : ∀ s ∈ m'.schemas, (s.columns.map (·.id)).Nodup
  lastColumnId : m.lastColumnId ≤ m'.lastColumnId
  bounded : ∀ c ∈ m'.columns, c.id ≤ m'.lastColumnId
  contains : ∀ c ∈ m.currentColumns, ∃ c' ∈ m'.currentColumns, c'.path = (c.renamed rename).path

/-- The committed schema keeps the id of every column in use, numbers the others from the unused
ids, and leaves out no column of the schema it replaces. -/
structure IcebergSchemaUpdate.Continues (u : IcebergSchemaUpdate) (m : IcebergMetadata) :
    Prop where
  ids : ∀ c ∈ u.columns, c ∈ m.currentColumns ∨
    c.path ∉ m.currentColumns.map (·.path) ∧ m.lastColumnId < c.id
  distinct : (u.columns.map (·.id)).Nodup
  paths : (u.columns.map (·.path)).Nodup
  bounded : ∀ c ∈ u.columns, c.id ≤ u.lastColumnId
  lastColumnId : m.lastColumnId ≤ u.lastColumnId
  complete : m.FirstIsCurrent → ∀ c ∈ m.currentColumns, c.path ∈ u.columns.map (·.path)

def renamedName (renames : List RenameColumnRequest) (name : String) : String :=
  renames.foldl (fun name r => if name = r.oldName then r.newName else name) name

/-- The evolution leaves no name to two columns. -/
def SchemaEvolution.NamesApart (e : SchemaEvolution) (m : IcebergMetadata) : Prop :=
  (m.currentFields.map (fun f => renamedName e.renames f.name) ++ e.adds.map (·.name)).Nodup

section Columns

theorem mem_columns_of_mem_current {m : IcebergMetadata} {c : Column}
    (h : c ∈ m.currentColumns) : c ∈ m.columns := by
  unfold IcebergMetadata.currentColumns IcebergMetadata.currentFields at h
  cases hs : m.currentSchema? with
  | none => simp [hs] at h
  | some s =>
    rw [hs] at h
    exact mem_flatMap.2 ⟨s, mem_of_find?_eq_some hs, h⟩

theorem eq_of_path_eq {cs : List Column} (h : (cs.map (·.path)).Nodup) {c c' : Column}
    (hc : c ∈ cs) (hc' : c' ∈ cs) (hp : c.path = c'.path) : c = c' :=
  inj_on_of_nodup_map h hc hc' hp

mutual
theorem IcebergType.path_ne_nil {t : IcebergType} {c : Column} (h : c ∈ t.columns) :
    c.path ≠ [] := by
  match t with
  | .primitive _ => cases h
  | .list _ _ _ =>
    simp only [IcebergType.columns,mem_cons,mem_map] at h
    rcases h with rfl | ⟨_,-,rfl⟩ <;> simp [Column.within]
  | .struct fields => exact fields.path_ne_nil h
  | .map _ _ _ _ _ =>
    simp only [IcebergType.columns,mem_cons,mem_append,mem_map] at h
    rcases h with rfl | rfl | ⟨_,-,rfl⟩ | ⟨_,-,rfl⟩ <;> simp [Column.within]

theorem IcebergFields.path_ne_nil {fields : IcebergFields} {c : Column} (h : c ∈ fields.columns) :
    c.path ≠ [] := by
  match fields with
  | .nil => cases h
  | .cons _ _ _ _ rest =>
    simp only [IcebergFields.columns,cons_append,mem_cons,mem_append,mem_map] at h
    rcases h with rfl | ⟨_,-,rfl⟩ | h
    · simp
    · simp [Column.within]
    · exact rest.path_ne_nil h
end

theorem exists_tail_of_mem_columns {f : IcebergField} {c : Column} (h : c ∈ f.columns) :
    ∃ rest, c.path = f.name :: rest := by
  simp only [IcebergField.columns,mem_cons,mem_map] at h
  rcases h with rfl | ⟨c,-,rfl⟩
  · exact ⟨[],rfl⟩
  · exact ⟨c.path,rfl⟩

theorem columns_renamed (rename : String → String) (f : IcebergField) :
    ({ f with name := rename f.name } : IcebergField).columns = f.columns.map (·.renamed rename) := by
  simp [IcebergField.columns,Column.renamed,Column.within,Function.comp_def]

theorem nodup_paths_iff (fields : List IcebergField) :
    ((fields.flatMap (·.columns)).map (·.path)).Nodup ↔
      (fields.map (·.name)).Nodup ∧ ∀ f ∈ fields, (f.type.columns.map (·.path)).Nodup := by
  have hown (f : IcebergField) : (f.columns.map (·.path)).Nodup ↔
      (f.type.columns.map (·.path)).Nodup := by
    have hpath : f.columns.map (·.path) =
        [f.name] :: (f.type.columns.map (·.path)).map (f.name :: ·) := by
      simp [IcebergField.columns,Column.within,Function.comp_def]
    rw [hpath,nodup_cons,nodup_map_iff (cons_injective (a := f.name))]
    refine and_iff_right_of_imp fun _ hmem => ?_
    simp only [map_map,mem_map,Function.comp_apply,List.cons.injEq,true_and] at hmem
    obtain ⟨c,hc,hnil⟩ := hmem
    exact f.type.path_ne_nil hc hnil
  have hapart (f g : IcebergField) :
      List.Disjoint (f.columns.map (·.path)) (g.columns.map (·.path)) ↔ f.name ≠ g.name := by
    constructor
    · intro hd he
      refine hd (a := [f.name]) (by simp [IcebergField.columns]) ?_
      simp [IcebergField.columns,he]
    · intro hne p hf hg
      obtain ⟨c,hc,rfl⟩ := mem_map.1 hf
      obtain ⟨c',hc',hp⟩ := mem_map.1 hg
      obtain ⟨rest,h₁⟩ := exists_tail_of_mem_columns hc
      obtain ⟨rest',h₂⟩ := exists_tail_of_mem_columns hc'
      rw [h₁,h₂] at hp
      exact hne (List.cons.inj hp).1.symm
  rw [map_flatMap,nodup_flatMap,and_comm]
  refine and_congr ?_ (forall₂_congr fun f _ => hown f)
  rw [List.Nodup,pairwise_map]
  exact List.Pairwise.iff hapart

end Columns

section Commit

variable {m m' : IcebergMetadata} {u : IcebergSchemaUpdate} {earlier : List IcebergMetadata}

theorem mem_patchFirstSchema {fields : List IcebergField} {schemas : List IcebergSchema}
    {s : IcebergSchema} (h : s ∈ IcebergMetadata.patchFirstSchema fields schemas) :
    s ∈ schemas ∨ s.fields = fields ∧ ∃ t ∈ schemas, s.schemaId = t.schemaId := by
  cases schemas with
  | nil => cases h
  | cons t rest =>
    rcases mem_cons.1 h with rfl | hrest
    · exact .inr ⟨rfl,t,mem_cons_self,rfl⟩
    · exact .inl (mem_cons_of_mem _ hrest)

theorem currentFields_of_patch {fields : List IcebergField}
    (hs : m'.schemas = IcebergMetadata.patchFirstSchema fields m.schemas)
    (hc : m'.currentSchemaId = m.currentSchemaId) :
    m.FirstIsCurrent ∧ m'.currentFields = fields ∨
      ¬m.FirstIsCurrent ∧ m'.currentFields = m.currentFields := by
  unfold IcebergMetadata.FirstIsCurrent IcebergMetadata.currentFields
    IcebergMetadata.currentSchema?
  rw [hs,hc]
  cases m.schemas with
  | nil => exact .inr ⟨by simp, rfl⟩
  | cons s rest =>
    by_cases hid : s.schemaId = m.currentSchemaId
    · left
      simp [IcebergMetadata.patchFirstSchema,hid]
    · right
      simp [IcebergMetadata.patchFirstSchema,hid]

theorem fieldIdsKept_of_continues (hm : m.FieldIdsSound) (hu : u.Continues m)
    (hearlier : ∀ e ∈ earlier, ∀ c ∈ e.columns, c.id ≤ m.lastColumnId)
    (hs : m'.schemas = IcebergMetadata.patchFirstSchema u.fields m.schemas)
    (hc : m'.currentSchemaId = m.currentSchemaId) (hl : m'.lastColumnId = u.lastColumnId) :
    FieldIdsKept earlier m id m' ∧ m'.FieldIdsSound := by
  have hcur : m.FirstIsCurrent ∧ m'.currentColumns = u.columns ∨
      m'.currentColumns = m.currentColumns := by
    rcases currentFields_of_patch hs hc with ⟨hfirst,hf⟩ | ⟨-,hf⟩
    · exact .inl ⟨hfirst, congrArg (List.flatMap _) hf⟩
    · exact .inr (congrArg (List.flatMap _) hf)
  have hcols : ∀ c ∈ m'.columns, c ∈ m.columns ∨ c ∈ u.columns := by
    intro c hc
    obtain ⟨s,hmem,hcs⟩ := mem_flatMap.1 hc
    rw [hs] at hmem
    rcases mem_patchFirstSchema hmem with hold | ⟨hf,-⟩
    · exact .inl (mem_flatMap.2 ⟨s,hold,hcs⟩)
    · right
      rwa [IcebergSchema.columns,hf] at hcs
  have hdistinct : ∀ s ∈ m'.schemas, (s.columns.map (·.id)).Nodup := by
    intro s hmem
    rw [hs] at hmem
    rcases mem_patchFirstSchema hmem with hold | ⟨hf,-⟩
    · exact hm.distinct s hold
    · rw [IcebergSchema.columns,hf]
      exact hu.distinct
  have hbounded : ∀ c ∈ m'.columns, c.id ≤ m'.lastColumnId := by
    intro c hc
    rw [hl]
    rcases hcols c hc with hold | hnew
    · exact Int.le_trans (hm.bounded c hold) hu.lastColumnId
    · exact hu.bounded c hnew
  refine ⟨⟨?_, ?_, hdistinct, hl ▸ hu.lastColumnId, hbounded, ?_⟩,
    ⟨?_,hdistinct,hbounded,?_⟩⟩
  · intro c hc c' hc' hp
    rw [renamed_id] at hp
    -- a path of the current schema is never taken by a column numbered afresh
    have hmem : c' ∈ m.currentColumns := by
      rcases hcur with ⟨-,hcur⟩ | hcur
      · rcases hu.ids c' (hcur ▸ hc') with h | ⟨hnot,-⟩
        · exact h
        · exact absurd (mem_map.2 ⟨c,hc,hp.symm⟩) hnot
      · exact hcur ▸ hc'
    rw [eq_of_path_eq hm.paths hmem hc hp]
  · intro c' hc'
    rcases hcols c' hc' with hold | hnew
    · exact .inl ⟨c', hold, rfl, .inl rfl⟩
    · rcases hu.ids c' hnew with h | ⟨-,hlt⟩
      · exact .inl ⟨c', mem_columns_of_mem_current h, rfl, .inl rfl⟩
      · right
        intro e he c hcol heq
        have hle : c.id ≤ m.lastColumnId := by
          rcases mem_cons.1 he with rfl | he
          · exact hm.bounded c hcol
          · exact hearlier e he c hcol
        omega
  · intro c hc
    simp only [renamed_id]
    rcases hcur with ⟨hfirst,hcur⟩ | hcur
    · obtain ⟨c',hc',hp⟩ := mem_map.1 (hu.complete hfirst c hc)
      exact ⟨c', hcur ▸ hc', hp⟩
    · exact ⟨c, hcur ▸ hc, rfl⟩
  · intro s hmem
    rw [hs] at hmem
    rw [hc]
    rcases mem_patchFirstSchema hmem with hold | ⟨-,t,ht,hid⟩
    · exact hm.schemaIds s hold
    · exact hid ▸ hm.schemaIds t ht
  · rcases hcur with ⟨-,hcur⟩ | hcur
    · exact hcur ▸ hu.paths
    · exact hcur ▸ hm.paths

theorem fieldIdsKept_of_eq (hm : m.FieldIdsSound) (hs : m'.schemas = m.schemas)
    (hc : m'.currentSchemaId = m.currentSchemaId) (hl : m'.lastColumnId = m.lastColumnId) :
    FieldIdsKept earlier m id m' ∧ m'.FieldIdsSound := by
  have hcols : m'.columns = m.columns := by rw [IcebergMetadata.columns,hs]; rfl
  have hcur : m'.currentColumns = m.currentColumns := by
    unfold IcebergMetadata.currentColumns IcebergMetadata.currentFields
      IcebergMetadata.currentSchema?
    rw [hs,hc]
  have hsound : m'.FieldIdsSound := by
    refine ⟨?_,?_,?_,?_⟩
    · rw [hs,hc]
      exact hm.schemaIds
    · rw [hs]
      exact hm.distinct
    · rw [hcols,hl]
      exact hm.bounded
    · rw [hcur]
      exact hm.paths
  refine ⟨⟨?_, ?_, hsound.distinct, Int.le_of_eq hl.symm, hsound.bounded, ?_⟩, hsound⟩
  · intro c hc c' hc' hp
    rw [renamed_id] at hp
    rw [eq_of_path_eq hm.paths (hcur ▸ hc') hc hp]
  · intro c' hc'
    exact .inl ⟨c', hcols ▸ hc', rfl, .inl rfl⟩
  · intro c hc
    exact ⟨c, hcur ▸ hc, by rw [renamed_id]⟩

end Commit

section Evolve

variable {m m' : IcebergMetadata} {e : SchemaEvolution} {earlier : List IcebergMetadata}

theorem renameFields_eq (renames : List RenameColumnRequest) (fields : List IcebergField) :
    renameFields renames fields =
      fields.map fun f => { f with name := renamedName renames f.name } := by
  induction renames generalizing fields with
  | nil => simp [renameFields,renamedName]
  | cons r rest ih =>
    have hstep : renameFields (r :: rest) fields =
        renameFields rest (fields.map (renameField r)) := rfl
    rw [hstep,ih,map_map]
    refine map_congr_left fun f _ => ?_
    by_cases hname : f.name = r.oldName <;> simp [renameField,renamedName,hname]

theorem columns_addedFields (last : Int) (adds : List AddColumnRequest) :
    (addedFields last adds).flatMap (·.columns) =
      adds.zipIdx.map fun p => ⟨last + p.2 + 1, [p.1.name]⟩ := by
  rw [addedFields,flatMap_map,map_eq_flatMap]
  rfl

theorem names_addedFields (last : Int) (adds : List AddColumnRequest) :
    (addedFields last adds).map (·.name) = adds.map (·.name) := by
  have hname : (fun f : IcebergField => f.name) ∘
      (fun p : AddColumnRequest × Nat => addedField (last + p.2 + 1) p.1) =
      (·.name) ∘ Prod.fst := rfl
  rw [addedFields,map_map,hname,← map_map,zipIdx_map_fst]

theorem id_of_mem_addedFields {last : Int} {adds : List AddColumnRequest} {c : Column}
    (h : c ∈ (addedFields last adds).flatMap (·.columns)) :
    last < c.id ∧ c.id ≤ last + adds.length := by
  rw [columns_addedFields] at h
  obtain ⟨⟨add,i⟩,hp,rfl⟩ := mem_map.1 h
  have hi := snd_lt_of_mem_zipIdx hp
  simp only at hi ⊢
  omega

theorem nodup_ids_addedFields (last : Int) (adds : List AddColumnRequest) :
    (((addedFields last adds).flatMap (·.columns)).map (·.id)).Nodup := by
  have hids : ((addedFields last adds).flatMap (·.columns)).map (·.id) =
      (adds.zipIdx.map Prod.snd).map fun (i : Nat) => last + i + 1 := by
    rw [columns_addedFields,map_map,map_map]
    rfl
  rw [hids,zipIdx_map_snd]
  refine List.Nodup.map (fun i j hij => ?_) nodup_range'
  change last + (i : Int) + 1 = last + (j : Int) + 1 at hij
  omega

theorem columns_evolved (renames : List RenameColumnRequest) (fields : List IcebergField)
    (last : Int) (adds : List AddColumnRequest) :
    (renameFields renames fields ++ addedFields last adds).flatMap (·.columns) =
      (fields.flatMap (·.columns)).map (·.renamed (renamedName renames)) ++
        (addedFields last adds).flatMap (·.columns) := by
  rw [flatMap_append,renameFields_eq,flatMap_map,map_flatMap]
  simp only [columns_renamed]

theorem schemas_evolved {nowMs : Int} (h : m.evolved e nowMs = some m') :
    ∃ s, s.schemaId = m.currentSchemaId + 1 ∧
      s.fields = renameFields e.renames m.currentFields ++ addedFields m.lastColumnId e.adds ∧
      m'.schemas = m.schemas ++ [s] ∧ m'.currentSchemaId = m.currentSchemaId + 1 ∧
      m'.lastColumnId = m.lastColumnId + e.adds.length := by
  obtain ⟨current,hcurrent,rfl⟩ := Option.map_eq_some_iff.1 h
  have hfields : m.currentFields = current.fields := by
    simp [IcebergMetadata.currentFields,hcurrent]
  exact ⟨_, rfl, hfields ▸ rfl, rfl, rfl, rfl⟩

theorem currentFields_of_push (hids : ∀ t ∈ m.schemas, t.schemaId ≤ m.currentSchemaId)
    {s : IcebergSchema} (hid : s.schemaId = m.currentSchemaId + 1)
    (hs : m'.schemas = m.schemas ++ [s]) (hc : m'.currentSchemaId = m.currentSchemaId + 1) : m'.currentFields = s.fields := by
  have hnone : m.schemas.find? (fun t => t.schemaId = m.currentSchemaId + 1) = none := by
    rw [find?_eq_none]
    intro t ht
    have hle := hids t ht
    simp only [decide_eq_true_eq]
    omega
  simp [IcebergMetadata.currentFields,IcebergMetadata.currentSchema?,hs,hc,hid,hnone]

theorem nodup_ids_current (hm : m.FieldIdsSound) : (m.currentColumns.map (·.id)).Nodup := by
  unfold IcebergMetadata.currentColumns IcebergMetadata.currentFields
  cases hs : m.currentSchema? with
  | none => simp
  | some s => exact hm.distinct s (mem_of_find?_eq_some hs)

theorem nodup_paths_evolved (hm : m.FieldIdsSound) (hn : e.NamesApart m) :
    (((renameFields e.renames m.currentFields ++ addedFields m.lastColumnId e.adds).flatMap
      (·.columns)).map (·.path)).Nodup := by
  rw [nodup_paths_iff]
  constructor
  · rw [map_append,renameFields_eq,map_map,names_addedFields]
    exact hn
  · intro f hf
    rw [mem_append,renameFields_eq] at hf
    rcases hf with hold | hnew
    · obtain ⟨g,hg,rfl⟩ := mem_map.1 hold
      exact ((nodup_paths_iff _).1 hm.paths).2 g hg
    · obtain ⟨p,-,rfl⟩ := mem_map.1 hnew
      exact nodup_nil

theorem nodup_ids_evolved (hm : m.FieldIdsSound) :
    (((renameFields e.renames m.currentFields ++ addedFields m.lastColumnId e.adds).flatMap
      (·.columns)).map (·.id)).Nodup := by
  rw [columns_evolved,map_append,map_map,nodup_append]
  refine ⟨nodup_ids_current hm, nodup_ids_addedFields _ _, ?_⟩
  intro i hi j hj hij
  obtain ⟨c,hc,rfl⟩ := mem_map.1 hi
  obtain ⟨c',hc',rfl⟩ := mem_map.1 hj
  have hold := hm.bounded c (mem_columns_of_mem_current hc)
  have hnew := (id_of_mem_addedFields hc').1
  change c.id = c'.id at hij
  omega

theorem fieldIdsKept_of_evolved {nowMs : Int} (hm : m.FieldIdsSound) (hn : e.NamesApart m)
    (hearlier : ∀ e ∈ earlier, ∀ c ∈ e.columns, c.id ≤ m.lastColumnId)
    (h : m.evolved e nowMs = some m') :
    FieldIdsKept earlier m (renamedName e.renames) m' ∧ m'.FieldIdsSound := by
  obtain ⟨s,hid,hf,hs,hc,hl⟩ := schemas_evolved h
  have hnew : s.columns = m.currentColumns.map (·.renamed (renamedName e.renames)) ++
      (addedFields m.lastColumnId e.adds).flatMap (·.columns) := by
    rw [IcebergSchema.columns,hf,columns_evolved]
    rfl
  have hcur : m'.currentColumns = s.columns := by
    rw [IcebergMetadata.currentColumns,currentFields_of_push hm.schemaIds hid hs hc]
    rfl
  have hcols : ∀ c ∈ m'.columns, c ∈ m.columns ∨ c ∈ s.columns := by
    intro c hmem
    rw [IcebergMetadata.columns,hs,flatMap_append,mem_append] at hmem
    simpa [IcebergMetadata.columns] using hmem
  -- a column of the new schema is a renamed one or has an id beyond all that were given
  have horigin : ∀ c' ∈ s.columns,
      (∃ c ∈ m.currentColumns, c' = c.renamed (renamedName e.renames)) ∨
        m.lastColumnId < c'.id ∧ c'.id ≤ m'.lastColumnId := by
    intro c' hc'
    rw [hnew,mem_append] at hc'
    rcases hc' with hold | hadd
    · obtain ⟨c,hc,rfl⟩ := mem_map.1 hold
      exact .inl ⟨c,hc,rfl⟩
    · exact .inr (hl ▸ id_of_mem_addedFields hadd)
  have hdistinct : ∀ t ∈ m'.schemas, (t.columns.map (·.id)).Nodup := by
    intro t ht
    rw [hs,mem_append,mem_singleton] at ht
    rcases ht with hold | rfl
    · exact hm.distinct t hold
    · rw [IcebergSchema.columns,hf]
      exact nodup_ids_evolved hm
  have hbounded : ∀ c ∈ m'.columns, c.id ≤ m'.lastColumnId := by
    intro c hmem
    rcases hcols c hmem with hold | hs'
    · have := hm.bounded c hold
      omega
    · rcases horigin c hs' with ⟨c,hc,rfl⟩ | ⟨-,hle⟩
      · have := hm.bounded c (mem_columns_of_mem_current hc)
        rw [Column.id_renamed]
        omega
      · exact hle
  have hpaths : (s.columns.map (·.path)).Nodup := by
    rw [IcebergSchema.columns,hf]
    exact nodup_paths_evolved hm hn
  have hrenamed : ∀ c ∈ m.currentColumns, c.renamed (renamedName e.renames) ∈ s.columns := by
    intro c hc
    rw [hnew]
    exact mem_append_left _ (mem_map_of_mem hc)
  refine ⟨⟨?_, ?_, hdistinct, by omega, hbounded, ?_⟩, ⟨?_, hdistinct, hbounded, hcur ▸ hpaths⟩⟩
  · intro c hc c' hc' hp
    rw [hcur] at hc'
    rw [eq_of_path_eq hpaths hc' (hrenamed c hc) hp,Column.id_renamed]
  · intro c' hc'
    rcases hcols c' hc' with hold | hs'
    · exact .inl ⟨c', hold, rfl, .inl rfl⟩
    · rcases horigin c' hs' with ⟨c,hc,rfl⟩ | ⟨hlt,-⟩
      · exact .inl ⟨c, mem_columns_of_mem_current hc, rfl, .inr rfl⟩
      · right
        intro e' he' c hcol heq
        have hle : c.id ≤ m.lastColumnId := by
          rcases mem_cons.1 he' with rfl | he'
          · exact hm.bounded c hcol
          · exact hearlier e' he' c hcol
        omega
  · intro c hc
    exact ⟨_, hcur ▸ hrenamed c hc, rfl⟩
  · intro t ht
    rw [hs,mem_append,mem_singleton] at ht
    rcases ht with hold | rfl
    · have := hm.schemaIds t hold
      omega
    · omega

end Evolve
end AiLake
