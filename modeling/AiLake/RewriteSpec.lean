import AiLake.ContentCommit

/-! Reading the live files of a table for a rewrite, and merging them. -/
namespace AiLake

open StoreProgram Prog

variable {site : Site} {m : IcebergMetadata} {views : List View} {c : Content} {w w' : Store}

theorem TableOf.run_loadTable (h : TableOf site w m views c) :
    (loadTable site).run w = (.ok m.toTableMetadata, w) := by
  simp only [loadTable,run_bind,run_loadRawMetadata h.reliable h.stored,run_pure]

theorem TableOf.render_location (h : TableOf site w m views c) (p : MetaPath) :
    MetaPath.render (trimEndSlashes m.toTableMetadata.location) p = site.path p := by
  have hloc : m.toTableMetadata.location = site.root := h.location
  rw [hloc,site.name_trimmed,Place.path]

theorem TableOf.run_listFiles (h : TableOf site w m views c) :
    (listFiles site none).run w = (.ok (c.files.map (·.entry)), w) := by
  rw [(run_list_current h.reliable h.stored).1,h.holds.files]

theorem TableOf.run_currentSnapshotOrNone (h : TableOf site w m views c) :
    (currentSnapshotOrNone site).run w = (.ok m.currentSnapshotId, w) := by
  simp only [currentSnapshotOrNone,run_bind,run_attempt,h.run_loadTable,run_pure]
  rfl

theorem run_loadDeletionVector (hr : w.Reliable) {dv : DeletionVector} {bitmap : Bitmap}
    (h : bitmapOf site w.objects (some dv) = some bitmap) :
    (loadDeletionVector site dv).run w = (.ok bitmap, w) := by
  unfold bitmapOf at h
  simp only at h
  split at h
  · rename_i blobs ho
    obtain ⟨b,hb,rfl⟩ := Option.map_eq_some_iff.1 h
    simp only [loadDeletionVector,run_bind,run_getObject_reliable hr ho,hb,run_pure]
  · cases h

theorem run_getDataFile (hr : w.Reliable) {path : String} {file : DataFile}
    (h : w.objects (site.locate path) = some (.dataFile file)) :
    (getDataFile site path).run w = (.ok file, w) := by
  simp only [getDataFile,run_bind,run_getObject_reliable hr h,run_pure]

theorem run_getDataFile_ok (hr : w.Reliable) {path : String} {file : DataFile}
    (h : (getDataFile site path).run w = (.ok file, w')) :
    w.objects (site.locate path) = some (.dataFile file) ∧ w' = w := by
  obtain ⟨o,w₁,h₁,hrest⟩ := run_bind_ok.1 h
  obtain ⟨ho,hw₁⟩ := run_getObject_ok h₁
  rw [World.tick_of_reliable hr] at hw₁
  subst hw₁
  cases o with
  | dataFile f =>
    cases hrest
    exact ⟨ho,rfl⟩
  | _ => cases hrest

theorem eq_of_readParquet {file : DataFile} {pair : RecordBatch × List (List F32)}
    (h : file.readParquet = .ok pair) : pair = (file.batch, file.vectors) := by
  unfold DataFile.readParquet at h
  split at h
  · cases h
  · exact (Except.ok.inj h).symm

def LiveFile.read (f : LiveFile) : SourceRead :=
  let pair := filterDeletedRows f.file.batch f.file.vectors f.bitmap
  ⟨f.entry, f.file, pair.1, pair.2⟩

theorem hides_empty (i : Nat) : Bitmap.hides ∅ i = false := by
  simp [Bitmap.hides]

@[simp] theorem LiveFile.schema_read (f : LiveFile) : f.read.batch.schema = f.file.batch.schema := by
  unfold LiveFile.read filterDeletedRows
  split <;> rfl

@[simp] theorem LiveFile.rows_read (f : LiveFile) : f.read.batch.rows = f.kept := by
  unfold LiveFile.read filterDeletedRows LiveFile.kept
  split
  · rename_i hb
    rw [RecordBatch.rows_filterRows,hb]
    simp [hides_empty]
  · rfl

@[simp] theorem LiveFile.entry_read (f : LiveFile) : f.read.entry = f.entry := rfl

@[simp] theorem LiveFile.file_read (f : LiveFile) : f.read.file = f.file := rfl

theorem run_readSource (hr : w.Reliable) {f : LiveFile} (hf : f.Stored site w.objects) :
    (f.file.batch.rows ≠ [] ∧ (readSource site f.entry).run w = (.ok f.read, w)) ∨
      f.file.batch.rows = [] ∧ ∃ e, (readSource site f.entry).run w = (.error e, w) := by
  simp only [readSource,run_bind,run_getDataFile hr hf.data,run_ofExcept,
    DataFile.readParquet]
  cases hrows : f.file.batch.rows with
  | nil => exact .inr ⟨rfl,_,rfl⟩
  | cons r rest =>
    refine .inl ⟨List.cons_ne_nil r rest, ?_⟩
    simp only [List.isEmpty_cons,Bool.false_eq_true,if_false]
    cases hdv : f.entry.deletionVector with
    | none =>
      have hb : f.bitmap = ∅ := by
        have hv := hf.vector
        rw [hdv] at hv
        exact (Option.some.inj hv).symm
      simp [LiveFile.read,filterDeletedRows,hb]
    | some dv =>
      have hload := run_loadDeletionVector hr (hdv ▸ hf.vector)
      simp only [run_bind,hload,run_pure]
      rfl

theorem run_readFilesParallel (hr : w.Reliable) {fs : List LiveFile}
    (hfs : ∀ f ∈ fs, f.Stored site w.objects) :
    ((∀ f ∈ fs, f.file.batch.rows ≠ []) ∧
      (readFilesParallel site (fs.map (·.entry))).run w = (.ok (fs.map (·.read)), w)) ∨
      (∃ f ∈ fs, f.file.batch.rows = []) ∧
        ∃ e, (readFilesParallel site (fs.map (·.entry))).run w = (.error e, w) := by
  induction fs with
  | nil => exact .inl ⟨by simp, rfl⟩
  | cons f rest ih =>
    simp only [List.map_cons,readFilesParallel,run_bind]
    rcases run_readSource hr (hfs f List.mem_cons_self) with ⟨hrows,hrun⟩ | ⟨hrows,e,hrun⟩
    · rw [hrun]
      rcases ih fun g hg => hfs g (List.mem_cons_of_mem f hg) with ⟨hrest,hrun'⟩ | ⟨hempty,e,hrun'⟩
      · refine .inl ⟨List.forall_mem_cons.2 ⟨hrows,hrest⟩, ?_⟩
        simp only [hrun',run_pure]
      · refine .inr ⟨?_,e,?_⟩
        · obtain ⟨g,hg,hnil⟩ := hempty
          exact ⟨g, List.mem_cons_of_mem f hg, hnil⟩
        · simp only [hrun']
    · exact .inr ⟨⟨f,List.mem_cons_self,hrows⟩, e, by rw [hrun]⟩

theorem run_readFilesParallel_ok (hr : w.Reliable) {fs : List LiveFile}
    (hfs : ∀ f ∈ fs, f.Stored site w.objects) {reads : List SourceRead}
    (h : (readFilesParallel site (fs.map (·.entry))).run w = (.ok reads, w')) :
    reads = fs.map (·.read) ∧ w' = w := by
  rcases run_readFilesParallel hr hfs with ⟨-,hrun⟩ | ⟨-,e,hrun⟩
  · cases hrun.symm.trans h
    exact ⟨rfl,rfl⟩
  · cases hrun.symm.trans h

theorem readOnly_getDataFile (path : String) : (getDataFile site path).ReadOnly := by
  refine (readOnly_getObject path).bind fun o => ?_
  cases o <;> trivial

theorem readOnly_loadDeletionVector (dv : DeletionVector) :
    (loadDeletionVector site dv).ReadOnly := by
  refine (readOnly_getObject dv.path).bind fun o => ?_
  split
  · split <;> trivial
  · trivial

theorem readOnly_readSource (entry : DataFileEntry) : (readSource site entry).ReadOnly := by
  refine (readOnly_getDataFile entry.path).bind fun file => Prog.ReadOnly.bind ?_ fun pair => ?_
  · cases file.readParquet <;> trivial
  · cases entry.deletionVector with
    | none => exact readOnly_pure _
    | some dv => exact (readOnly_loadDeletionVector dv).bind fun _ => readOnly_pure _

theorem readOnly_readFilesParallel (entries : List DataFileEntry) :
    (readFilesParallel site entries).ReadOnly := by
  induction entries with
  | nil => exact readOnly_pure _
  | cons entry rest ih =>
    exact (readOnly_readSource entry).bind fun _ => ih.bind fun _ => readOnly_pure _

theorem ids_of_mergeReads {reads : List SourceRead} {merged : RecordBatch × List (List F32)}
    (h : mergeReads reads = .ok merged) :
    merged.1.rows.map (·.id) = (reads.flatMap (·.batch.rows)).map (·.id) := by
  unfold mergeReads at h
  split at h
  · cases h
  · rename_i first rest
    split at h
    · cases h
    · rename_i batch hbatch
      cases h
      simp only [rows_of_concatBatches hbatch,List.flatMap_map,List.map_flatMap,List.map_map]
      rfl

theorem batch_of_writeDataFile {policy : VectorStoragePolicy} {batch : RecordBatch}
    {embeddings : List (List F32)} {index : Option VectorIndex} {fts : Bool} {file : DataFile}
    (h : writeDataFile policy batch embeddings index fts = .ok file) : file.batch = batch := by
  unfold writeDataFile at h
  split at h
  · cases h
  · cases h
    rfl

end AiLake
