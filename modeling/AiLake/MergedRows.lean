import AiLake.CompactionSpec

/-! What the merging calls make of their sources' rows. The batches are joined by position under the
columns of one, so a value stays under its name exactly when its source's columns stand as that
batch's do. -/
namespace AiLake

open StoreProgram List Prog

/-! Rows under the names of their columns. -/

def valueOf (schema : List Field) (cells : List Cell) (name : String) : Option Cell :=
  ((schema.zip cells).find? fun p => p.1.name = name).map Prod.snd

/-- A source of a merge: its columns, its live rows, and their vectors in the same order. -/
structure MergeSource where
  schema : List Field
  rows : List Row
  vectors : List (List F32)

structure NamedRow where
  schema : List Field
  row : Row
  vector : Option (List F32)

def MergeSource.live (s : MergeSource) : List NamedRow :=
  s.rows.zipIdx.map fun p => ⟨s.schema, p.1, s.vectors[p.2]?⟩

/-- The same row, with the same vector and the same value under each name. -/
structure NamedRow.Same (a b : NamedRow) : Prop where
  id : b.row.id = a.row.id
  values : ∀ name, valueOf b.schema b.row.cells name = valueOf a.schema a.row.cells name
  vector : b.vector = a.vector

/-- The merged rows are those of the sources, each once. -/
def KeepsRows (sources : List MergeSource) (merged : MergeSource) : Prop :=
  ∃ arranged, arranged.Perm (sources.flatMap (·.live)) ∧
    List.Forall₂ NamedRow.Same arranged merged.live

/-- The rows of the sources after one another, under the columns `schema`. -/
def joinRows (schema : List Field) (sources : List MergeSource) : MergeSource where
  schema := schema
  rows := sources.flatMap fun s =>
    s.rows.map fun r => { r with cells := r.cells.take schema.length }
  vectors := sources.flatMap (·.vectors)

/-- Reading a row under the columns `schema` gives each of its values under the same name. -/
def Aligned (schema : List Field) (sources : List MergeSource) : Prop :=
  ∀ s ∈ sources, ∀ r ∈ s.rows, ∀ name, valueOf schema r.cells name = valueOf s.schema r.cells name

variable {schema : List Field} {sources order : List MergeSource}

theorem aligned_of_same_columns (h : ∀ s ∈ sources, s.schema = schema) : Aligned schema sources := by
  intro s hs r _ name
  rw [h s hs]

theorem valueOf_take (cells : List Cell) (name : String) :
    valueOf schema (cells.take schema.length) name = valueOf schema cells name := by
  rw [valueOf,zip_take_length,valueOf]

def NamedRow.under (schema : List Field) (a : NamedRow) : NamedRow :=
  ⟨schema, { a.row with cells := a.row.cells.take schema.length }, a.vector⟩

theorem MergeSource.live_eq_zipWith (s : MergeSource) (h : s.vectors.length = s.rows.length) :
    s.live = List.zipWith (fun r v => ⟨s.schema, r, some v⟩) s.rows s.vectors := by
  refine ext_getElem? fun i => ?_
  rw [MergeSource.live,getElem?_map,getElem?_zipIdx,getElem?_zipWith]
  by_cases hi : i < s.rows.length
  · have hi' : i < s.vectors.length := h ▸ hi
    simp [getElem?_eq_getElem hi,getElem?_eq_getElem hi']
  · have hi' : ¬ i < s.vectors.length := h ▸ hi
    simp [getElem?_eq_none (not_lt.1 hi)]

theorem length_joinRows (schema : List Field) (s : MergeSource) (rest : List MergeSource) :
    (joinRows schema (s :: rest)).vectors.length =
        s.vectors.length + (joinRows schema rest).vectors.length ∧
      (joinRows schema (s :: rest)).rows.length =
        s.rows.length + (joinRows schema rest).rows.length := by
  simp [joinRows]

/-- There is one vector for each row when there is one for each row of each source, and no other way
when no source has more vectors than rows. -/
theorem length_vectors_joinRows_iff
    (hle : ∀ s ∈ sources, s.vectors.length ≤ s.rows.length) :
    (joinRows schema sources).vectors.length = (joinRows schema sources).rows.length ↔
      ∀ s ∈ sources, s.vectors.length = s.rows.length := by
  have htotal (l : List MergeSource) (hl : ∀ s ∈ l, s.vectors.length ≤ s.rows.length) :
      (joinRows schema l).vectors.length ≤ (joinRows schema l).rows.length := by
    induction l with
    | nil => exact Nat.le_refl 0
    | cons s rest ih =>
      obtain ⟨hvectors,hrows⟩ := length_joinRows schema s rest
      have hs := hl s mem_cons_self
      have hrest := ih fun s' hs' => hl s' (mem_cons_of_mem s hs')
      omega
  induction sources with
  | nil => simp [joinRows]
  | cons s rest ih =>
    obtain ⟨hvectors,hrows⟩ := length_joinRows schema s rest
    have hs := hle s mem_cons_self
    have hrest : ∀ s' ∈ rest, s'.vectors.length ≤ s'.rows.length :=
      fun s' hs' => hle s' (mem_cons_of_mem s hs')
    have hsum := htotal rest hrest
    constructor
    · intro heq
      exact forall_mem_cons.2 ⟨by omega, (ih hrest).1 (by omega)⟩
    · intro hall
      obtain ⟨hfirst,hothers⟩ := forall_mem_cons.1 hall
      have htail := (ih hrest).2 hothers
      omega

theorem live_joinRows (h : ∀ s ∈ sources, s.vectors.length = s.rows.length) :
    (joinRows schema sources).live = (sources.flatMap (·.live)).map (NamedRow.under schema) := by
  rw [MergeSource.live_eq_zipWith _
    ((length_vectors_joinRows_iff fun s hs => (h s hs).le).2 h)]
  induction sources with
  | nil => rfl
  | cons s rest ih =>
    have hs := h s mem_cons_self
    have hrest := ih fun s' hs' => h s' (mem_cons_of_mem s hs')
    simp only [joinRows,flatMap_cons,map_append] at hrest ⊢
    rw [zipWith_append (by simp [hs]),hrest,MergeSource.live_eq_zipWith s hs]
    simp [zipWith_map_left,map_zipWith,NamedRow.under]

theorem map_row_live (s : MergeSource) : s.live.map (·.row) = s.rows := by
  rw [MergeSource.live,map_map]
  exact zipIdx_map_fst 0 s.rows

theorem map_id_live (s : MergeSource) : s.live.map (·.row.id) = s.rows.map (·.id) := by
  rw [← map_row_live s,map_map]
  rfl

theorem mem_live {s : MergeSource} {a : NamedRow} (h : a ∈ s.live) : a.schema = s.schema ∧ a.row ∈ s.rows := by
  obtain ⟨p,hp,rfl⟩ := mem_map.1 h
  exact ⟨rfl, fst_mem_of_mem_zipIdx hp⟩

theorem exists_live {s : MergeSource} {r : Row} (h : r ∈ s.rows) :
    ∃ a ∈ s.live, a.schema = s.schema ∧ a.row = r := by
  obtain ⟨i,hi,rfl⟩ := getElem_of_mem h
  refine ⟨⟨s.schema,s.rows[i],s.vectors[i]?⟩, mem_map.2 ⟨(s.rows[i], i), ?_, rfl⟩, rfl, rfl⟩
  simp [mem_zipIdx_iff_getElem?]

theorem eq_of_forall₂_key {α β κ : Type} {f : α → κ} {g : β → κ} {R : α → β → Prop} {l l' : List α}
    {merged : List β} (hperm : l'.Perm l) (hnodup : (l.map f).Nodup) (hkeys : merged.map g = l.map f)
    (hR : ∀ a b, R a b → g b = f a) (h : List.Forall₂ R l' merged) : l' = l := by
  have hsame : l'.map f = l.map f := by
    rw [← hkeys]
    refine ext_getElem (by simp [h.length_eq]) fun i hi hi' => ?_
    simp only [getElem_map]
    exact (hR _ _ (h.get (by simpa using hi) (by simpa using hi'))).symm
  have hinj := inj_on_of_nodup_map hnodup
  refine ext_getElem hperm.length_eq fun i hi hi' => ?_
  refine hinj (hperm.subset (getElem_mem hi)) (getElem_mem hi') ?_
  have hi'' := congrArg (fun k : List κ => k[i]?) hsame
  simpa [getElem?_map,getElem?_eq_getElem hi,getElem?_eq_getElem hi'] using hi''

theorem rows_joinRows : (joinRows schema order).rows =
    (order.flatMap (·.live)).map fun a => (a.under schema).row := by
  simp only [joinRows,map_flatMap,NamedRow.under]
  refine flatMap_congr fun s _ => ?_
  rw [← map_row_live s,map_map]
  rfl

theorem aligned_of_keepsRows {data : MergeSource} (hperm : order.Perm sources)
    (hids : ((sources.flatMap (·.rows)).map (·.id)).Nodup) (hschema : data.schema = schema)
    (hrows : data.rows = (joinRows schema order).rows) (h : KeepsRows sources data) :
    Aligned schema order := by
  obtain ⟨arranged,harranged,hsame⟩ := h
  have hlive : (order.flatMap (·.live)).Perm (sources.flatMap (·.live)) := hperm.flatMap_right _
  have hkeys : ((order.flatMap (·.live)).map (·.row.id)).Nodup := by
    refine (hlive.map _).nodup_iff.2 ?_
    rw [map_flatMap] at hids ⊢
    simpa only [map_id_live] using hids
  have hvalues : List.Forall₂ (fun (a : NamedRow) (r : Row) => r.id = a.row.id ∧
      ∀ name, valueOf schema r.cells name = valueOf a.schema a.row.cells name) arranged data.rows := by
    rw [← zipIdx_map_fst 0 data.rows,forall₂_map_right_iff]
    refine (forall₂_map_right_iff.1 hsame).imp fun a p hp => ⟨hp.id,?_⟩
    rw [← hschema]
    exact hp.values
  rw [hrows,rows_joinRows] at hvalues
  have heq : arranged = order.flatMap (·.live) := by
    refine eq_of_forall₂_key (harranged.trans hlive.symm) hkeys (g := (·.id)) ?_
      (fun a r har => har.1) hvalues
    rw [map_map]
    rfl
  subst heq
  intro s hs r hr name
  obtain ⟨a,ha,hsource,rfl⟩ := exists_live hr
  have hself := forall₂_same.1 (forall₂_map_right_iff.1 hvalues) a
    (mem_flatMap.2 ⟨s,hs,ha⟩)
  rw [← hsource,← hself.2 name]
  exact (valueOf_take _ _).symm

theorem keepsRows_joinRows (hperm : order.Perm sources)
    (hvectors : ∀ s ∈ order, s.vectors.length = s.rows.length) (h : Aligned schema order) :
    KeepsRows sources (joinRows schema order) := by
  refine ⟨_, hperm.flatMap_right _, ?_⟩
  rw [live_joinRows hvectors]
  refine forall₂_map_right_iff.2 (forall₂_same.2 fun a ha => ?_)
  obtain ⟨s,hs,ha⟩ := mem_flatMap.1 ha
  obtain ⟨hschema,hrow⟩ := mem_live ha
  refine ⟨rfl, fun name => ?_, rfl⟩
  rw [hschema,← h s hs a.row hrow name]
  exact valueOf_take _ _

/-! What Arrow joins. -/

/-- The columns have the types of `schema`, and the values its nullability. -/
def MergeSource.JoinsUnder (schema : List Field) (s : MergeSource) : Prop :=
  sameTypes schema s.schema = true ∧
    ∀ r ∈ s.rows, fits schema (r.cells.take schema.length) = true

def Joins (schema : List Field) (batches : List RecordBatch) : Prop :=
  ∀ b ∈ batches, (⟨b.schema, b.rows, []⟩ : MergeSource).JoinsUnder schema

theorem concatBatches_eq_some {batches : List RecordBatch} {b : RecordBatch} :
    concatBatches schema batches = some b ↔ Joins schema batches ∧ b.schema = schema ∧
      b.rows = batches.flatMap fun b =>
        b.rows.map fun r => { r with cells := r.cells.take schema.length } := by
  unfold concatBatches
  constructor
  · intro h
    split at h
    · rename_i htypes
      obtain ⟨hschema,hrows⟩ := RecordBatch.tryNew_eq_some.1 h
      refine ⟨fun b' hb' => ⟨all_eq_true.1 htypes b' hb', fun r hr => ?_⟩, hschema, hrows⟩
      have hvalid := all_eq_true.1 b.valid { r with cells := r.cells.take schema.length } (by
        rw [hrows]
        exact mem_flatMap.2 ⟨b', hb', mem_map_of_mem hr⟩)
      rwa [hschema] at hvalid
    · cases h
  · rintro ⟨hjoins,hschema,hrows⟩
    rw [if_pos (all_eq_true.2 fun b hb => (hjoins b hb).1)]
    exact RecordBatch.tryNew_eq_some.2 ⟨hschema,hrows⟩

theorem exists_concatBatches {batches : List RecordBatch} (h : Joins schema batches) :
    ∃ b, concatBatches schema batches = some b := by
  have hvalid : (batches.flatMap fun b => b.rows.map fun r =>
      { r with cells := r.cells.take schema.length }).all (fun r => fits schema r.cells) = true := by
    rw [all_eq_true]
    intro r hr
    obtain ⟨b,hb,hr⟩ := mem_flatMap.1 hr
    obtain ⟨r',hr',rfl⟩ := mem_map.1 hr
    exact (h b hb).2 r' hr'
  exact ⟨⟨schema,_,hvalid⟩, concatBatches_eq_some.2 ⟨h,rfl,rfl⟩⟩

def SourceRead.source (r : SourceRead) : MergeSource := ⟨r.batch.schema, r.batch.rows, r.vectors⟩

structure Holding (data : MergeSource) (pair : RecordBatch × List (List F32)) : Prop where
  schema : pair.1.schema = data.schema
  rows : pair.1.rows = data.rows
  vectors : pair.2 = data.vectors

theorem mergeReads_eq_ok {first : SourceRead} {rest : List SourceRead}
    {pair : RecordBatch × List (List F32)} :
    mergeReads (first :: rest) = .ok pair ↔
      Joins first.batch.schema ((first :: rest).map (·.batch)) ∧
        Holding (joinRows first.batch.schema ((first :: rest).map (·.source))) pair := by
  have hrows (batches : List SourceRead) : (joinRows first.batch.schema (batches.map (·.source))).rows =
      (batches.map (·.batch)).flatMap fun b =>
        b.rows.map fun r => { r with cells := r.cells.take first.batch.schema.length } := by
    simp only [joinRows,flatMap_map]
    rfl
  have hvectors (batches : List SourceRead) :
      (joinRows first.batch.schema (batches.map (·.source))).vectors =
        batches.flatMap (·.vectors) := by
    simp only [joinRows,flatMap_map]
    rfl
  simp only [mergeReads]
  constructor
  · intro h
    split at h
    · cases h
    · rename_i batch hbatch
      cases h
      obtain ⟨hjoins,hschema,hrows'⟩ := concatBatches_eq_some.1 hbatch
      exact ⟨hjoins, hschema, hrows'.trans (hrows _).symm, (hvectors _).symm⟩
  · rintro ⟨hjoins,hholding⟩
    have hbatch := concatBatches_eq_some.2
      ⟨hjoins, hholding.schema, hholding.rows.trans (hrows _)⟩
    rw [hbatch]
    exact congrArg Except.ok (Prod.ext rfl ((hvectors _).symm.trans hholding.vectors.symm))

def WritesData (policy : VectorStoragePolicy) (data : MergeSource) (file : DataFile) : Prop :=
  ∃ batch index fts, Holding data (batch, data.vectors) ∧
    writeDataFile policy batch data.vectors index fts = .ok file

theorem WritesData.batch_eq {policy : VectorStoragePolicy} {data : MergeSource} {file : DataFile}
    (h : WritesData policy data file) : file.batch.schema = data.schema ∧ file.batch.rows = data.rows := by
  obtain ⟨batch,index,fts,hholding,hfile⟩ := h
  rw [batch_of_writeDataFile hfile]
  exact ⟨hholding.schema,hholding.rows⟩

variable {site : Site} {fmt : FileFormat} {m : IcebergMetadata} {views : List View} {c : Content}
  {w w' : Store} {ex : CompactionExecutor} {path : String}

variable (site fmt ex path) in
/-- Merging what was read, on a reliable store: the batches must join, with a vector for each row
and as many nodes in the index. -/
theorem run_mergeAndWrite (entries : List DataFileEntry) (index : List (List F32) → VectorIndex)
    (firstRowId : Option Int) (hr : w.Reliable) {first : SourceRead} {rest : List SourceRead}
    {data : MergeSource} (hdata : data = joinRows first.batch.schema ((first :: rest).map (·.source))) :
    let merge := mergeAndWrite site fmt ex entries path (first :: rest) index firstRowId
    let accepted := Joins first.batch.schema ((first :: rest).map (·.batch)) ∧
      data.vectors.length = data.rows.length ∧ (index data.vectors).nodeCount = data.rows.length
    (accepted ∧ ∃ entry file, merge.run w = (.ok entry, w.write (site.locate path) (.dataFile file)) ∧
      WritesData ex.policy data file) ∨
    (¬accepted ∧ ∃ e w', merge.run w = (.error e, w') ∧
      (w' = w ∨ ∃ o, w' = w.write (site.locate path) o)) := by
  intro merge accepted
  cases hmerged : mergeReads (first :: rest) with
  | error e =>
    right
    refine ⟨fun haccepted => ?_, e, w, ?_, .inl rfl⟩
    · obtain ⟨b,hb⟩ := exists_concatBatches haccepted.1
      simp only [mergeReads,hb] at hmerged
      cases hmerged
    · simp only [merge,mergeAndWrite,run_bind,run_ofExcept,hmerged]
  | ok pair =>
    obtain ⟨hjoins,hholding⟩ := mergeReads_eq_ok.1 hmerged
    rw [← hdata] at hholding
    obtain ⟨batch,vectors⟩ := pair
    obtain rfl : vectors = data.vectors := hholding.vectors
    have hrun : merge.run w = (ex.writeMerged site fmt entries path batch data.vectors
        (index data.vectors) firstRowId).run w := by
      simp only [merge,mergeAndWrite,run_bind,run_ofExcept,hmerged]
    have hcount : batch.numRows = data.rows.length := congrArg List.length hholding.rows
    simp only [CompactionExecutor.writeMerged,run_bind,run_ofExcept] at hrun
    by_cases hlength : data.vectors.length = batch.numRows
    · have hwrite (fts : Bool) : writeDataFile ex.policy batch data.vectors
          (some (index data.vectors)) fts = .ok ⟨batch, if ex.policy.keepRaw then data.vectors else [],
            some (index data.vectors), fts⟩ := by
        simp [writeDataFile,hlength]
      simp only [hwrite,run_putObject_reliable hr,DataFile.verifyIntegrity] at hrun
      by_cases hnodes : batch.numRows = (index data.vectors).nodeCount
      · left
        rw [if_neg (not_not.2 hnodes)] at hrun
        exact ⟨⟨hjoins, hlength.trans hcount, hnodes.symm.trans hcount⟩, _, _, hrun,
          batch, _, _, hholding, hwrite _⟩
      · right
        rw [if_pos hnodes] at hrun
        exact ⟨fun haccepted => hnodes (hcount.trans haccepted.2.2.symm), _, _, hrun, .inr ⟨_,rfl⟩⟩
    · right
      have hwrite (fts : Bool) : writeDataFile ex.policy batch data.vectors
          (some (index data.vectors)) fts =
            .error (.dimensionMismatch batch.numRows data.vectors.length) := by
        simp [writeDataFile,hlength]
      simp only [hwrite] at hrun
      exact ⟨fun haccepted => hlength (haccepted.2.1.trans hcount.symm), _, _, hrun, .inl rfl⟩

end AiLake
