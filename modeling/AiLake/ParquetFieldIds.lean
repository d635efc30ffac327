import AiLake.SchemaHistory
import AiLake.VectorWritesSpec

/-! The field ids in the Parquet files of a session, against those of the schema that its commit
gives the table. -/
namespace AiLake

open StoreProgram Option

structure ParquetColumn where
  field : Field
  fieldId : Nat
  deriving DecidableEq, Repr

/- An id that the field came with is overwritten. -/
def stampFieldId (field : Field) (id : Nat) : ParquetColumn := ⟨field, id⟩

def vectorField (policy : VectorStoragePolicy) : Field where
  name := policy.columnName
  dataType := .fixedSizeBinary (policy.dim * policy.precision.bytesPerElement)
  nullable := false

/-- `write_batch_with_kv`: the columns of the batch from 1 on, and then the raw vectors if the file
keeps them. -/
def parquetColumns (policy : VectorStoragePolicy) (schema : List Field) : List ParquetColumn :=
  (schema.zipIdx.map fun p => stampFieldId p.1 (p.2 + 1)) ++
    if policy.keepRaw then [stampFieldId (vectorField policy) (schema.length + 1)] else []

/-- A call of `write_batch`, with what the store answers meanwhile. -/
structure PlainWrite where
  batch : RecordBatch
  embeddings : List (List F32)
  answers : Answers

namespace PlainWrite

def call (b : PlainWrite) : WriteCall × Answers := (.plain b.batch b.embeddings, b.answers)

def names (b : PlainWrite) : List String := b.batch.schema.map (·.name)

section Outcome

variable (writer : VectorWriter) (engine : VectorEngine)

/-- The call gets as far as to merge the schema of its batch into the session's. -/
def captured (b : PlainWrite) : Bool := (validateEmbeddingDim writer.policy b.embeddings).isOk

def file (b : PlainWrite) : Option VectorFile :=
  match validateEmbeddingDim writer.policy b.embeddings with
  | .error _ => none
  | .ok _ =>
    match writeMulti engine b.batch .hnsw writer.fts [⟨writer.policy, b.embeddings⟩] with
    | .error _ => none
    | .ok file => if b.answers.fileStored ∧ engine.readsBack file then some file else none

end Outcome
end PlainWrite

def plainSession (writer : VectorWriter) (engine : VectorEngine) (writes : List PlainWrite) :
    WriteSession :=
  WriteSession.new.after writer engine (writes.map (·.call))

/-- The columns of the batches that were captured and the vector column, in the order in which they
first appear. -/
def columnOrder (writer : VectorWriter) (writes : List PlainWrite) : List String :=
  (((writes.filter (·.captured writer)).flatMap (·.names)) ++ [writer.policy.columnName]).eraseDups

def PlainWrite.fileNames (writer : VectorWriter) (b : PlainWrite) : List String :=
  b.names ++ if writer.policy.keepRaw then [writer.policy.columnName] else []

/-- The schema gives the column its id and nothing else, and that id to no other column. -/
structure ParquetColumn.Agrees (fields : List IcebergField) (c : ParquetColumn) : Prop where
  given : ∃ f ∈ fields, f.name = c.field.name ∧ f.id = c.fieldId
  only : ∀ f ∈ fields, f.name = c.field.name → f.id = c.fieldId
  handed : ∀ f ∈ fields, f.id = c.fieldId → f.name = c.field.name

/-- In every file of the session the columns carry the ids that the schema gives them. -/
def FieldIdsAgree (writer : VectorWriter) (engine : VectorEngine) (writes : List PlainWrite)
    (fields : List IcebergField) : Prop :=
  ∀ b ∈ writes, (b.file writer engine).isSome →
    ∀ c ∈ parquetColumns writer.policy b.batch.schema, c.Agrees fields

/-! What the session leaves. -/

section Session

variable (writer : VectorWriter) (engine : VectorEngine) (s : WriteSession)

theorem outcome_updateBm25 (answers : Answers) (batch : RecordBatch) (path : String) :
    ((updateBm25 writer engine answers batch path).outcome s).2.pendingFiles = s.pendingFiles ∧
      ((updateBm25 writer engine answers batch path).outcome s).2.capturedSchema =
        s.capturedSchema := by
  unfold updateBm25
  split
  · exact ⟨rfl,rfl⟩
  · split
    · split <;> exact ⟨rfl,rfl⟩
    · exact ⟨rfl,rfl⟩

theorem outcome_storeIndexed (answers : Answers) (path : String) (file : VectorFile)
    (primary : VectorColumnBatch) (rest : List VectorColumnBatch) (batchId : Option String) :
    let r := (storeIndexed writer engine answers path file primary rest batchId).outcome s
    (answers.fileStored ∧ engine.readsBack file) ∧ r.1 = .ok ⟨⟩ ∧
        r.2.pendingFiles.map Prod.snd = s.pendingFiles.map Prod.snd ++ [file] ∧
        r.2.capturedSchema = s.capturedSchema ∨
      ¬(answers.fileStored ∧ engine.readsBack file) ∧ (∃ e, r.1 = .error e) ∧ r.2 = s := by
  intro r
  by_cases hstored : answers.fileStored = true
  · by_cases hreads : engine.readsBack file = true
    · refine .inl ⟨⟨hstored,hreads⟩,?_⟩
      simp only [r,storeIndexed,putFile,hstored,hreads,if_true]
      exact ⟨rfl,List.map_append,rfl⟩
    · refine .inr ⟨fun h => hreads h.2, ?_⟩
      simp only [r,storeIndexed,putFile,hstored,hreads,if_true]
      exact ⟨⟨_,rfl⟩,rfl⟩
  · refine .inr ⟨fun h => hstored h.1, ?_⟩
    simp only [r,storeIndexed,putFile,hstored]
    exact ⟨⟨_,rfl⟩,rfl⟩

theorem outcome_store_update (answers : Answers) (path : String) (file : VectorFile)
    (primary : VectorColumnBatch) (batch : RecordBatch) :
    let s' := ((storeIndexed writer engine answers path file primary [] none >>= fun _ =>
      updateBm25 writer engine answers batch path).outcome s).2
    s'.pendingFiles.map Prod.snd = s.pendingFiles.map Prod.snd ++
        (if answers.fileStored ∧ engine.readsBack file then some file else none).toList ∧
      s'.capturedSchema = s.capturedSchema := by
  intro s'
  simp only [s',Call.outcome_bind]
  have hstore := outcome_storeIndexed writer engine s answers path file primary [] none
  revert hstore
  rcases (storeIndexed writer engine answers path file primary [] none).outcome s with ⟨r,s₁⟩
  rintro (⟨hstored,rfl,hpending,hschema⟩ | ⟨hstored,⟨e,rfl⟩,rfl⟩)
  · have hupdate := outcome_updateBm25 writer engine s₁ answers batch path
    rw [if_pos hstored]
    exact ⟨(congrArg (List.map Prod.snd) hupdate.1).trans hpending, hupdate.2.trans hschema⟩
  · simp only [if_neg hstored,toList_none,List.append_nil,and_self]

theorem outcome_plain (b : PlainWrite) :
    let s' := ((b.call.1.step writer engine b.call.2).outcome s).2
    s'.pendingFiles.map Prod.snd = s.pendingFiles.map Prod.snd ++ (b.file writer engine).toList ∧
      s'.capturedSchema = if b.captured writer then some (mergeSchema s.capturedSchema b.batch.schema)
        else s.capturedSchema := by
  intro s'
  simp only [s',PlainWrite.call,WriteCall.step,writeBatchPlain]
  rw [writeBatchWithId,Call.outcome_ofExcept_bind,PlainWrite.file,PlainWrite.captured]
  cases validateEmbeddingDim writer.policy b.embeddings with
  | error e => exact ⟨(List.append_nil _).symm, rfl⟩
  | ok u =>
    simp only
    rw [captureSchema,modify,Call.outcome_modifyGet_bind,nextPartPath,
      Call.outcome_modifyGet_bind,Call.outcome_ofExcept_bind]
    cases writeMulti engine b.batch .hnsw writer.fts [⟨writer.policy,b.embeddings⟩] with
    | error e => exact ⟨(List.append_nil _).symm, rfl⟩
    | ok file => exact outcome_store_update writer engine _ b.answers _ file _ b.batch

theorem keeps_extraVecPolicies (b : PlainWrite) :
    (b.call.1.step writer engine b.call.2).Keeps fun s : WriteSession => s.extraVecPolicies = [] := by
  refine Call.Keeps.bind (.ofExcept _) fun _ _ => ?_
  refine Call.Keeps.bind (.modify fun _ => id) fun _ _ => ?_
  refine Call.Keeps.bind (fun _ => id) fun path _ => ?_
  refine Call.Keeps.bind (.ofExcept _) fun file _ => ?_
  refine Call.Keeps.bind ?_ fun _ _ => ?_
  · unfold storeIndexed putFile
    refine Call.Keeps.bind ?_ fun _ _ => ?_
    · split
      · exact .pure _
      · exact .throw _
    · split
      · exact .modify fun _ => id
      · exact .throw _
  · unfold updateBm25
    split
    · exact .pure _
    · split
      · split
        · exact .modify fun _ => id
        · exact .pure _
      · exact .throw _

theorem after_extraVecPolicies (writes : List PlainWrite) {s : WriteSession}
    (hs : s.extraVecPolicies = []) :
    (s.after writer engine (writes.map (·.call))).extraVecPolicies = [] := by
  induction writes generalizing s with
  | nil => exact hs
  | cons b rest ih => exact ih (keeps_extraVecPolicies writer engine b s hs)

theorem after_plain (writes : List PlainWrite) (s : WriteSession) :
    ((s.after writer engine (writes.map (·.call))).pendingFiles.map Prod.snd =
        s.pendingFiles.map Prod.snd ++ writes.filterMap (·.file writer engine)) ∧
      (s.after writer engine (writes.map (·.call))).capturedSchema =
        (writes.filter (·.captured writer)).foldl
          (fun schema b => some (mergeSchema schema b.batch.schema)) s.capturedSchema := by
  induction writes generalizing s with
  | nil => exact ⟨(List.append_nil _).symm, rfl⟩
  | cons b rest ih =>
    obtain ⟨hpending,hschema⟩ := outcome_plain writer engine s b
    obtain ⟨hpending',hschema'⟩ := ih ((b.call.1.step writer engine b.call.2).outcome s).2
    refine ⟨hpending'.trans ?_, hschema'.trans ?_⟩
    · rw [hpending,List.append_assoc,List.filterMap_cons]
      cases b.file writer engine <;> rfl
    · rw [hschema,List.filter_cons]
      split <;> rfl

end Session

/-! The ids of the schema. -/

theorem names_mergeSchema (schema : List Field) (new : List Field) :
    (mergeSchema (some schema) new).map (·.name) =
      schema.map (·.name) ++ (new.map (·.name)).filter (· ∉ schema.map (·.name)) := by
  rw [mergeSchema,List.map_append,List.filter_map]
  rfl

theorem eraseDups_of_nodup {l : List String} (h : l.Nodup) : l.eraseDups = l := by
  induction l with
  | nil => rfl
  | cons x l ih =>
    rw [List.nodup_cons] at h
    have hfilter : l.filter (fun y => !y == x) = l := by
      rw [List.filter_eq_self]
      intro y hy
      have hne : y ≠ x := fun he => h.1 (he ▸ hy)
      simp [hne]
    rw [List.eraseDups_cons,hfilter,ih h.2]

theorem eraseDups_append_of_nodup {l l' : List String} (h : l.Nodup) (h' : l'.Nodup) :
    (l ++ l').eraseDups = l ++ l'.filter (· ∉ l) := by
  have hremove : l'.removeAll l = l'.filter (· ∉ l) := by
    simp [List.removeAll]
  rw [List.eraseDups_append,eraseDups_of_nodup h,hremove,eraseDups_of_nodup (h'.filter _)]

theorem eraseDups_eraseDups_append (l l' : List String) :
    (l.eraseDups ++ l').eraseDups = (l ++ l').eraseDups := by
  have hremove : l'.removeAll l.eraseDups = l'.removeAll l := by
    simp [List.removeAll,List.mem_eraseDups]
  rw [List.eraseDups_append,List.eraseDups_append,hremove,eraseDups_of_nodup (nodup_eraseDups l)]

/-- The union of the captured schemas has its columns in the order in which they first appear. -/
theorem names_union (batches : List PlainWrite) (hsets : ∀ b ∈ batches, b.names.Nodup)
    (schema : List Field) (hschema : (schema.map (·.name)).Nodup) :
    ∃ union, batches.foldl (fun schema b => some (mergeSchema schema b.batch.schema)) (some schema) =
      some union ∧ union.map (·.name) =
        (schema.map (·.name) ++ batches.flatMap (·.names)).eraseDups := by
  induction batches generalizing schema with
  | nil => exact ⟨schema, rfl, by rw [List.flatMap_nil,List.append_nil,eraseDups_of_nodup hschema]⟩
  | cons b rest ih =>
    have hb : b.names.Nodup := hsets b List.mem_cons_self
    have hmerged : (mergeSchema (some schema) b.batch.schema).map (·.name) =
        (schema.map (·.name) ++ b.names).eraseDups := by
      rw [names_mergeSchema,eraseDups_append_of_nodup hschema hb]
      rfl
    obtain ⟨union,hunion,hnames⟩ := ih (fun b' hb' => hsets b' (List.mem_cons_of_mem b hb'))
      (mergeSchema (some schema) b.batch.schema) (hmerged ▸ nodup_eraseDups _)
    refine ⟨union,hunion,?_⟩
    rw [hnames,hmerged,eraseDups_eraseDups_append,List.flatMap_cons,List.append_assoc]

def updateNames (schema : List Field) (policy : VectorColumn) : List String :=
  schema.map (·.name) ++ [policy.columnName].filter (· ∉ schema.map (·.name))

theorem getElem?_batchFields (schema : List Field) (id n : Int) (i : Nat) :
    (batchFields schema id n).1[i]?.map (fun f => (f.name, f.id)) =
      schema[i]?.map fun f => (f.name, id + i) := by
  induction schema generalizing id n i with
  | nil => rfl
  | cons f rest ih =>
    cases i with
    | zero => simp [batchFields,batchField]
    | succ i =>
      simp only [batchFields,List.getElem?_cons_succ,ih]
      have hid : id + 1 + (i : Int) = id + (i + 1 : Nat) := by omega
      rw [hid]

theorem length_batchFields (schema : List Field) (id n : Int) :
    (batchFields schema id n).1.length = schema.length := by
  induction schema generalizing id n with
  | nil => rfl
  | cons f rest ih => simp only [batchFields,List.length_cons,ih]

/-- The fields have these names and are numbered from 1 in their order. -/
def NumberedAs (fields : List IcebergField) (names : List String) : Prop :=
  ∀ i : Nat, fields[i]?.map (fun f => (f.name, f.id)) = names[i]?.map fun name => (name, (i : Int) + 1)

theorem numberedAs_update (schema : List Field) (policy : VectorColumn) :
    NumberedAs (arrowSchemaToIcebergUpdate schema policy []).fields (updateNames schema policy) := by
  intro i
  simp only [arrowSchemaToIcebergUpdate,updateNames]
  by_cases hi : i < schema.length
  · rw [List.getElem?_append_left (by rw [length_batchFields]; exact hi),
      List.getElem?_append_left (by rw [List.length_map]; exact hi),getElem?_batchFields,
      List.getElem?_map,map_map]
    refine congrArg (Option.map · schema[i]?) ?_
    funext f
    simp only [Function.comp_apply,Prod.mk.injEq,true_and]
    omega
  · rw [List.getElem?_append_right (by rw [length_batchFields]; omega),
      List.getElem?_append_right (by rw [List.length_map]; omega),length_batchFields,
      List.length_map,vectorColumns]
    by_cases hmem : policy.columnName ∈ schema.map (·.name)
    · rw [List.filter_cons_of_neg (by simpa using hmem),List.filter_cons_of_neg (by simpa using hmem)]
      rfl
    · rw [List.filter_cons_of_pos (by simpa using hmem),List.filter_cons_of_pos (by simpa using hmem)]
      obtain ⟨k,rfl⟩ : ∃ k, i = schema.length + k := ⟨i - schema.length, by omega⟩
      rw [Nat.add_sub_cancel_left]
      cases k with
      | zero => simp [vectorFields,batchField]
      | succ k => simp [vectorFields]

theorem getElem?_parquetColumns (policy : VectorStoragePolicy) (schema : List Field) (i : Nat) :
    (parquetColumns policy schema)[i]?.map (fun c => (c.field.name, c.fieldId)) =
      (schema.map (·.name) ++ if policy.keepRaw then [policy.columnName] else [])[i]?.map
        fun name => (name, i + 1) := by
  unfold parquetColumns
  by_cases hi : i < schema.length
  · rw [List.getElem?_append_left (by simpa using hi),List.getElem?_append_left (by simpa using hi)]
    rw [List.getElem?_map,List.getElem?_zipIdx,List.getElem?_map,map_map,map_map,
      map_map]
    refine congrArg (Option.map · schema[i]?) ?_
    funext f
    simp [stampFieldId]
  · obtain ⟨k,rfl⟩ : ∃ k, i = schema.length + k := ⟨i - schema.length, by omega⟩
    rw [List.getElem?_append_right (by simp),List.getElem?_append_right (by simp)]
    cases policy.keepRaw with
    | false => simp
    | true =>
      cases k with
      | zero => simp [stampFieldId,vectorField]
      | succ k => simp

theorem agrees_iff {fields : List IcebergField} {names : List String} (hnames : names.Nodup)
    (hfields : NumberedAs fields names) {c : ParquetColumn} {i : Nat} (hid : c.fieldId = i + 1) : c.Agrees fields ↔ names[i]? = some c.field.name := by
  have hplace : ∀ f ∈ fields, ∃ j : Nat, names[j]? = some f.name ∧ f.id = (j : Int) + 1 := by
    intro f hf
    obtain ⟨j,hj⟩ := List.mem_iff_getElem?.1 hf
    have hname := hfields j
    rw [hj,map_some] at hname
    obtain ⟨name,hname,heq⟩ := map_eq_some_iff.1 hname.symm
    obtain ⟨rfl,hid'⟩ := Prod.mk.inj heq
    exact ⟨j,hname,hid'.symm⟩
  constructor
  · intro h
    obtain ⟨f,hf,hname,hfid⟩ := h.given
    obtain ⟨j,hj,hfid'⟩ := hplace f hf
    have hji : j = i := by omega
    rw [← hji,hj,hname]
  · intro hi
    refine ⟨?_, fun f hf hname => ?_, fun f hf hfid => ?_⟩
    · have hfield := hfields i
      rw [hi,map_some] at hfield
      obtain ⟨f,hf,heq⟩ := map_eq_some_iff.1 hfield
      have hname := congrArg Prod.fst heq
      have hfid := congrArg Prod.snd heq
      exact ⟨f, List.mem_of_getElem? hf, hname, by rw [hid]; exact_mod_cast hfid⟩
    · obtain ⟨j,hj,hfid⟩ := hplace f hf
      have hji : j = i := by
        obtain ⟨hjlt,hj'⟩ := List.getElem?_eq_some_iff.1 hj
        obtain ⟨hilt,hi'⟩ := List.getElem?_eq_some_iff.1 hi
        exact (hnames.getElem_inj_iff).1 (hj'.trans (hname.trans hi'.symm))
      omega
    · obtain ⟨j,hj,hfid'⟩ := hplace f hf
      have hji : j = i := by omega
      rw [hji,hi] at hj
      exact (some_inj.1 hj).symm

theorem file_agrees_iff {fields : List IcebergField} {names : List String} (hnames : names.Nodup)
    (hfields : NumberedAs fields names) (writer : VectorWriter) (b : PlainWrite) :
    (∀ c ∈ parquetColumns writer.policy b.batch.schema, c.Agrees fields) ↔
      b.fileNames writer <+: names := by
  have hcolumns := getElem?_parquetColumns writer.policy b.batch.schema
  rw [List.prefix_iff_getElem?]
  constructor
  · intro h i hi
    have hi' : (b.fileNames writer)[i]? = some (b.fileNames writer)[i] := List.getElem?_eq_getElem hi
    have hcolumn := hcolumns i
    change _ = (b.fileNames writer)[i]?.map _ at hcolumn
    rw [hi',map_some] at hcolumn
    obtain ⟨c,hc,heq⟩ := map_eq_some_iff.1 hcolumn
    obtain ⟨hname,hid⟩ := Prod.mk.inj heq
    rw [(agrees_iff hnames hfields hid).1 (h c (List.mem_of_getElem? hc)),hname]
  · intro h c hc
    obtain ⟨i,hi⟩ := List.mem_iff_getElem?.1 hc
    have hcolumn := hcolumns i
    rw [hi,map_some] at hcolumn
    obtain ⟨name,hname,heq⟩ := map_eq_some_iff.1 hcolumn.symm
    obtain ⟨hfst,hsnd⟩ := Prod.mk.inj heq
    obtain ⟨hlt,hget⟩ := List.getElem?_eq_some_iff.1 hname
    rw [agrees_iff hnames hfields hsnd.symm,h i hlt,← hfst]
    exact congrArg some hget

/-! The commit. -/

/-- Every file of the session has the first of the columns, in the order in which they appeared. -/
def ColumnsLead (writer : VectorWriter) (engine : VectorEngine) (writes : List PlainWrite) : Prop :=
  ∀ b ∈ writes, (b.file writer engine).isSome → b.fileNames writer <+: columnOrder writer writes

section Commit

variable {writer : VectorWriter} {engine : VectorEngine} {writes : List PlainWrite}

theorem captured_of_file {b : PlainWrite} (h : (b.file writer engine).isSome) :
    b.captured writer = true := by
  unfold PlainWrite.file at h
  unfold PlainWrite.captured
  cases hvalid : validateEmbeddingDim writer.policy b.embeddings with
  | error e =>
    rw [hvalid] at h
    cases h
  | ok u => rfl

theorem plainSession_schema (engine : VectorEngine) (hsets : ∀ b ∈ writes, b.names.Nodup)
    (hcaptured : ∃ b ∈ writes, b.captured writer = true) :
    ∃ union, (plainSession writer engine writes).capturedSchema = some union ∧
      (union.map (·.name)).Nodup ∧
      updateNames union writer.policy.vectorColumn = columnOrder writer writes := by
  have hafter := (after_plain writer engine writes .new).2
  cases hfilter : writes.filter (·.captured writer) with
  | nil =>
    obtain ⟨b,hb,hcap⟩ := hcaptured
    have hmem : b ∈ writes.filter (·.captured writer) := List.mem_filter.2 ⟨hb,hcap⟩
    rw [hfilter] at hmem
    cases hmem
  | cons b rest =>
    have hsub : ∀ b' ∈ b :: rest, b'.names.Nodup := by
      intro b' hb'
      rw [← hfilter] at hb'
      exact hsets b' (List.mem_filter.1 hb').1
    rw [hfilter,List.foldl_cons] at hafter
    obtain ⟨union,hunion,hnames⟩ := names_union rest
      (fun b' hb' => hsub b' (List.mem_cons_of_mem b hb')) b.batch.schema (hsub b List.mem_cons_self)
    have hnodup : (union.map (·.name)).Nodup := hnames ▸ nodup_eraseDups _
    refine ⟨union, hafter.trans hunion, hnodup, ?_⟩
    rw [updateNames,← eraseDups_append_of_nodup hnodup (List.nodup_singleton _),hnames,
      eraseDups_eraseDups_append,columnOrder,hfilter,List.flatMap_cons]
    rfl

variable {site : Site} {m m' : IcebergMetadata} {views : List View} {w w' : Store}
  {snapshotId id : SnapshotId} {nowMs : Int}

theorem currentFields_of_commit {s : WriteSession} {schema : List Field}
    (hst : Stored site w.objects m views) (hfresh : FreshSnapshot site w.objects m snapshotId)
    (hpending : s.pendingFiles ≠ []) (hschema : s.capturedSchema = some schema)
    (hextra : s.extraVecPolicies = [])
    (hrun : (s.commit writer site snapshotId nowMs).run w = (.ok id, w')) (hloads : Loads site w' m') :
    m.FirstIsCurrent ∧ m'.currentFields =
        (arrowSchemaToIcebergUpdate schema writer.policy.vectorColumn []).fields ∨
      ¬m.FirstIsCurrent ∧ m'.currentFields = m.currentFields := by
  unfold WriteSession.commit at hrun
  rw [if_neg (by simpa using hpending)] at hrun
  obtain ⟨stats,pstats,-,hst',-⟩ := run_commitSnapshot_ok hst hfresh hrun
  obtain rfl := hloads.eq_of_stored hst'
  have hpatch : (commitArtifacts site m (s.snapshot writer snapshotId) nowMs stats pstats).schemaPatch =
      (s.snapshot writer snapshotId).icebergSchema.map (schemaPatch m.partitionSpecs) := rfl
  have hupdate : (s.snapshot writer snapshotId).icebergSchema =
      some (arrowSchemaToIcebergUpdate schema writer.policy.vectorColumn []) := by
    rw [WriteSession.snapshot,hschema,hextra]
    rfl
  have hschemas := m.schemas_applyCommit
    (commitArtifacts site m (s.snapshot writer snapshotId) nowMs stats pstats)
  rw [hpatch,hupdate] at hschemas
  exact currentFields_of_patch hschemas (m.currentSchemaId_applyCommit _)

/-- The columns of all files lead and the commit reaches the current schema; a commit that does not
reach it finds them there under their ids. -/
def IdsLead (m : IcebergMetadata) (writer : VectorWriter) (engine : VectorEngine)
    (writes : List PlainWrite) : Prop :=
  m.FirstIsCurrent ∧ ColumnsLead writer engine writes ∨
    ¬m.FirstIsCurrent ∧ FieldIdsAgree writer engine writes m.currentFields

/-- The files of the commit are those of the calls that stored one; their field ids agree with the
schema that the commit leaves exactly when their columns lead. -/
theorem parquet_fieldIds_agree_iff (hst : Stored site w.objects m views)
    (hfresh : FreshSnapshot site w.objects m snapshotId) (hsets : ∀ b ∈ writes, b.names.Nodup)
    (hrun : ((plainSession writer engine writes).commit writer site snapshotId nowMs).run w =
      (.ok id, w')) (hloads : Loads site w' m') :
    (plainSession writer engine writes).pendingFiles.map Prod.snd =
        writes.filterMap (·.file writer engine) ∧
      (FieldIdsAgree writer engine writes m'.currentFields ↔ IdsLead m writer engine writes) := by
  have hfiles : (plainSession writer engine writes).pendingFiles.map Prod.snd =
      writes.filterMap (·.file writer engine) := (after_plain writer engine writes .new).1
  refine ⟨hfiles,?_⟩
  by_cases hstored : ∃ b ∈ writes, (b.file writer engine).isSome = true
  · obtain ⟨b,hb,hfile⟩ := hstored
    obtain ⟨union,hunion,hnodup,hnames⟩ :=
      plainSession_schema engine hsets ⟨b, hb, captured_of_file hfile⟩
    have hpending : (plainSession writer engine writes).pendingFiles ≠ [] := by
      intro hnil
      obtain ⟨file,hfile⟩ := isSome_iff_exists.1 hfile
      have hmem : file ∈ writes.filterMap (·.file writer engine) := List.mem_filterMap.2 ⟨b,hb,hfile⟩
      rw [← hfiles,hnil] at hmem
      cases hmem
    have hnumbered := numberedAs_update union writer.policy.vectorColumn
    rw [hnames] at hnumbered
    have hiff : FieldIdsAgree writer engine writes
        (arrowSchemaToIcebergUpdate union writer.policy.vectorColumn []).fields ↔
          ColumnsLead writer engine writes :=
      forall₃_congr fun b _ _ => file_agrees_iff (nodup_eraseDups _) hnumbered writer b
    rcases currentFields_of_commit hst hfresh hpending hunion
      (after_extraVecPolicies writer engine writes rfl) hrun
      hloads with ⟨hfirst,hfields⟩ | ⟨hfirst,hfields⟩
    · rw [hfields,hiff,IdsLead]
      simp [hfirst]
    · rw [hfields,IdsLead]
      simp [hfirst]
  · push Not at hstored
    have hagree : ∀ fields, FieldIdsAgree writer engine writes fields := by
      intro fields b hb hfile
      exact absurd hfile (hstored b hb)
    have hlead : ColumnsLead writer engine writes := by
      intro b hb hfile
      exact absurd hfile (hstored b hb)
    refine ⟨fun _ => ?_, fun _ => hagree _⟩
    rcases em m.FirstIsCurrent with hfirst | hfirst
    · exact .inl ⟨hfirst,hlead⟩
    · exact .inr ⟨hfirst, hagree _⟩

end Commit

/-! Sessions on the table of the other examples, one row a batch. -/

def demoIdText : PlainWrite where
  batch := ⟨[⟨"id", .int64, false⟩, ⟨"text", .utf8, false⟩],
    [⟨0, [some (.int 7), some (.str "a")]⟩], by decide⟩
  embeddings := [[0x3F800000#32, 0#32]]
  answers := demoAnswers

def demoTextId : PlainWrite where
  batch := ⟨[⟨"text", .utf8, false⟩, ⟨"id", .int64, false⟩],
    [⟨1, [some (.str "b"), some (.int 8)]⟩], by decide⟩
  embeddings := [[0x3F800000#32, 0#32]]
  answers := demoAnswers

def demoWritesCommit (writes : List PlainWrite) : Except AilakeError SnapshotId × Store :=
  ((plainSession demoVectorWriter demoVectorEngine writes).commit demoVectorWriter demoSite 1 0).run
    (demoTable 2)

theorem firstIsCurrent_demoMetadata : (demoMetadata 2).FirstIsCurrent := rfl

theorem loads_of_commit {writer : VectorWriter} {s : WriteSession} {site : Site} {m : IcebergMetadata}
    {views : List View} {w w' : Store} {snapshotId id : SnapshotId} {nowMs : Int}
    (hst : Stored site w.objects m views) (hfresh : FreshSnapshot site w.objects m snapshotId)
    (hpending : s.pendingFiles ≠ [])
    (hrun : (s.commit writer site snapshotId nowMs).run w = (.ok id, w')) : ∃ m', Loads site w' m' := by
  unfold WriteSession.commit at hrun
  rw [if_neg (by simpa using hpending)] at hrun
  obtain ⟨stats,pstats,-,hst',-⟩ := run_commitSnapshot_ok hst hfresh hrun
  exact ⟨_, congrArg Prod.fst (run_loadRawMetadata w'.reliable_reliably hst')⟩

theorem parquet_fieldIds_agree_same_columns :
    ∃ m', Loads demoSite (demoWritesCommit [demoIdText, demoIdText]).2 m' ∧
      FieldIdsAgree demoVectorWriter demoVectorEngine [demoIdText, demoIdText] m'.currentFields := by
  have hrun : demoWritesCommit [demoIdText,demoIdText] =
      (.ok 1, (demoWritesCommit [demoIdText,demoIdText]).2) := Prod.ext (by decide) rfl
  obtain ⟨m',hloads⟩ := loads_of_commit (stored_demoTable 2) ⟨by decide, by decide⟩ (by decide) hrun
  refine ⟨m',hloads,?_⟩
  refine ((parquet_fieldIds_agree_iff (stored_demoTable 2) ⟨by decide, by decide⟩ (by decide) hrun
    hloads).2).2 (.inl ⟨firstIsCurrent_demoMetadata,?_⟩)
  unfold ColumnsLead
  decide

/-- The second batch has the columns of the first one in another order: a reader that looks for the
field id of `id` in its file is handed `text`. -/
theorem parquet_fieldIds_differ :
    (demoWritesCommit [demoIdText, demoTextId]).1 = .ok 1 ∧ ∃ m',
      Loads demoSite (demoWritesCommit [demoIdText, demoTextId]).2 m' ∧
      ¬FieldIdsAgree demoVectorWriter demoVectorEngine [demoIdText, demoTextId] m'.currentFields := by
  have hrun : demoWritesCommit [demoIdText,demoTextId] =
      (.ok 1, (demoWritesCommit [demoIdText,demoTextId]).2) := Prod.ext (by decide) rfl
  obtain ⟨m',hloads⟩ := loads_of_commit (stored_demoTable 2) ⟨by decide, by decide⟩ (by decide) hrun
  refine ⟨congrArg Prod.fst hrun, m', hloads, fun h => ?_⟩
  have hfields := currentFields_of_commit (stored_demoTable 2) ⟨by decide, by decide⟩ (by decide) rfl rfl
    hrun hloads
  obtain ⟨-,hfields⟩ := hfields.resolve_right fun hnot => hnot.1 firstIsCurrent_demoMetadata
  have hagrees := h demoTextId (by simp) (by decide) ⟨⟨"id",.int64,false⟩,2⟩ (by decide)
  rw [hfields] at hagrees
  obtain ⟨f,hf,hname,hid⟩ := hagrees.given
  revert hname hid
  revert f
  decide

end AiLake
