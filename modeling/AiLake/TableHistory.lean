import AiLake.StoreProgram.History
import AiLake.DeleteSpec
import AiLake.CompactionSpec
import AiLake.WriterSpec

/-! Histories of appends, deletes, compactions and index patches, and the rows that their snapshots
show. -/
namespace AiLake

open StoreProgram List

def visibleIds (site : Site) (tx : TextForms) (w : Store) : List Nat :=
  ((currentContent site w.objects).map fun c => (c.visible tx).map (·.id)).getD []

structure FreshId (site : Site) (objects : String → Option Object) (id : SnapshotId) : Prop where
  unused : ∀ m ∈ currentMetadata site objects, id ∉ m.snapshots.map (·.snapshotId)
  absent : ∀ p ∈ commitPaths id ++ [.deletionVector id, .equalityDelete id],
    objects (site.key p) = none

inductive TableOp where
  | append (writer : TableWriter) (writes : List BatchWrite) (snapshotId : SnapshotId)
  | deleteWhere (column : String) (values : List String) (snapshotId : SnapshotId)
  | deleteRows (filePath : String) (rowIds : List UInt32) (snapshotId : SnapshotId)
  | compaction (mode : CompactionMode) (selection : FileSelection) (ex : CompactionExecutor)
      (outputPrefix : String) (ts : Nat) (snapshotId : SnapshotId)
  | patchIndex (policy : VectorStoragePolicy) (filePath : String) (attempts : List SnapshotId)
  | patchIndexFailed (filePath reason : String) (snapshotId : SnapshotId)

namespace TableOp

variable (site : Site) (fmt : FileFormat) (nowMs : Int)

def program : TableOp → Program Unit
  | .append writer writes id => do
    let _ ← appendBatches site fmt writer writes id nowMs
    pure ()
  | .deleteWhere column values id => AiLake.deleteWhere site fmt column values id nowMs
  | .deleteRows filePath rowIds id => AiLake.deleteRows site fmt filePath rowIds id nowMs
  | .compaction mode selection ex outputPrefix ts id => do
    let _ ← compactionRun site fmt mode selection.pick ex outputPrefix ts id nowMs
    pure ()
  | .patchIndex policy filePath attempts =>
    buildAndPatchIndex site fmt policy filePath attempts nowMs
  | .patchIndexFailed filePath reason id =>
    AiLake.patchIndexFailed site filePath reason id nowMs

theorem run_append_ok {site : Site} {fmt : FileFormat} {nowMs : Int} {writer : TableWriter}
    {writes : List BatchWrite} {id : SnapshotId} {w w' : Store}
    (h : ((TableOp.append writer writes id).program site fmt nowMs).run w = (.ok (), w')) :
    ∃ committed, (appendBatches site fmt writer writes id nowMs).run w = (.ok committed, w') := by
  obtain ⟨committed,w₁,h₁,hdone⟩ := Prog.run_bind_ok.1 h
  cases hdone
  exact ⟨committed,h₁⟩

theorem run_compaction_ok {site : Site} {fmt : FileFormat} {nowMs : Int} {mode : CompactionMode}
    {selection : FileSelection} {ex : CompactionExecutor} {outputPrefix : String} {ts : Nat}
    {id : SnapshotId} {w w' : Store}
    (h : ((TableOp.compaction mode selection ex outputPrefix ts id).program site fmt nowMs).run w =
      (.ok (), w')) : ∃ result, (compactionRun site fmt mode selection.pick ex outputPrefix ts id
        nowMs).run w = (.ok result, w') := by
  obtain ⟨result,w₁,h₁,hdone⟩ := Prog.run_bind_ok.1 h
  cases hdone
  exact ⟨result,h₁⟩

/-- The snapshot ids and the names of data files that an operation brings are new. -/
def Fresh (objects : String → Option Object) : TableOp → Prop
  | .append writer writes id => FreshId site objects id ∧
    (∀ p ∈ writer.partPaths 0 writes, NewData site objects p) ∧
    ((writer.partPaths 0 writes).map site.locate).Nodup
  | .compaction _ _ _ outputPrefix ts id =>
    FreshId site objects id ∧ NewData site objects (outputPath outputPrefix ts)
  | .patchIndex _ _ attempts => attempts.Nodup ∧ ∀ id ∈ attempts, FreshId site objects id
  | .deleteWhere _ _ id | .deleteRows _ _ id | .patchIndexFailed _ _ id => FreshId site objects id

/-- The operations that commit a Replace. -/
def rewrites : TableOp → Bool
  | .append .. | .deleteWhere .. => false
  | _ => true

def appended : TableOp → List Nat
  | .append _ writes _ => writes.flatMap fun b => b.batch.rows.map (·.id)
  | _ => []

end TableOp

/-- An operation that succeeds. A Replace meets a table in which the equality deletes take no row
that the deletion vectors leave. -/
structure TableStep (site : Site) (fmt : FileFormat) (tx : TextForms) (w : Store)
    (op : TableOp × Int) (w' : Store) : Prop where
  run : (op.1.program site fmt op.2).run w = (.ok (), w')
  fresh : op.1.Fresh site w.objects
  unmasked : op.1.rewrites → ∀ c ∈ currentContent site w.objects, c.Unmasked tx

section Rows

variable {site : Site} {fmt : FileFormat} {tx : TextForms} {m : IcebergMetadata}
  {views : List View} {c : Content} {w w' : Store} {snapshotId : SnapshotId} {nowMs : Int}

def Content.keptIds (c : Content) : List Nat := (c.files.flatMap (·.kept)).map (·.id)

def Content.visibleIds (tx : TextForms) (c : Content) : List Nat := (c.visible tx).map (·.id)

theorem TableOf.visibleIds (h : TableOf site w m views c) :
    visibleIds site tx w = c.visibleIds tx := by
  simp [AiLake.visibleIds,Content.visibleIds,h.currentContent]

theorem mem_keptIds {id : Nat} : id ∈ c.keptIds ↔ ∃ f ∈ c.files, ∃ r ∈ f.kept, r.id = id := by
  simp only [Content.keptIds,map_flatMap,mem_flatMap,mem_map]

theorem mem_visibleIds {id : Nat} :
    id ∈ c.visibleIds tx ↔ ∃ f ∈ c.files, ∃ r ∈ c.visibleIn tx f, r.id = id := by
  simp only [Content.visibleIds,Content.visible,map_flatMap,mem_flatMap,mem_map]

theorem visibleIds_subset_keptIds (tx : TextForms) (c : Content) : c.visibleIds tx ⊆ c.keptIds := by
  intro id hid
  obtain ⟨f,hf,r,hr,hid⟩ := mem_visibleIds.1 hid
  exact mem_keptIds.2 ⟨f, hf, r, mem_of_mem_filter hr, hid⟩

theorem visibleIds_of_unmasked (h : c.Unmasked tx) : c.visibleIds tx = c.keptIds := by
  rw [Content.visibleIds,Content.visible_of_unmasked h,Content.keptIds]

theorem mem_kept {f : LiveFile} {r : Row} :
    r ∈ f.kept ↔ ∃ i, f.file.batch.rows[i]? = some r ∧ f.bitmap.hides i = false := by
  unfold LiveFile.kept
  rw [RecordBatch.rows_filterRows,mem_map]
  constructor
  · rintro ⟨⟨r',i⟩,hp,rfl⟩
    obtain ⟨hp,hk⟩ := mem_filter.1 hp
    exact ⟨i, mem_zipIdx_iff_getElem?.1 hp, by simpa using hk⟩
  · rintro ⟨i,hi,hk⟩
    exact ⟨(r, i), mem_filter.2 ⟨mem_zipIdx_iff_getElem?.2 hi, by simpa using hk⟩, rfl⟩

theorem mem_rows_of_mem_kept {f : LiveFile} {r : Row} (h : r ∈ f.kept) : r ∈ f.file.batch.rows := by
  obtain ⟨i,hi,-⟩ := mem_kept.1 h
  exact mem_of_getElem? hi

theorem keptIds_subset {files : List LiveFile} {c' : Content}
    (h : ∀ f' ∈ c'.files, ∃ f ∈ files, f'.file = f.file ∧ f'.bitmap = f.bitmap)
    (hfiles : ∀ f ∈ files, ∀ r ∈ f.kept, r.id ∈ c.keptIds) : c'.keptIds ⊆ c.keptIds := by
  intro id hid
  obtain ⟨f',hf',r,hr,rfl⟩ := mem_keptIds.1 hid
  obtain ⟨f,hf,hfile,hbitmap⟩ := h f' hf'
  have hkept : f'.kept = f.kept := by
    unfold LiveFile.kept
    rw [hfile,hbitmap]
  exact hfiles f hf r (hkept ▸ hr)

theorem exists_of_mem_committed {files : List LiveFile} {f' : LiveFile}
    (h : f' ∈ withEntries files (committedEntries site m (files.map (·.entry)))) :
    ∃ f ∈ files, f'.file = f.file ∧ f'.bitmap = f.bitmap := by
  obtain ⟨f,hf,-,hfile,hbitmap⟩ := exists_of_mem_withEntries (forall₂_committedEntries _) h
  exact ⟨f,hf,hfile,hbitmap⟩

theorem keptIds_hideRows (target : Nat) (rowIds : List UInt32) (dv : DeletionVector) :
    Content.keptIds ⟨withEntries (hideRows c.files target rowIds dv) (committedEntries site m
      ((hideRows c.files target rowIds dv).map (·.entry))), []⟩ ⊆ c.keptIds := by
  refine keptIds_subset (fun f' hf' => exists_of_mem_committed hf') fun f' hf' r hr => ?_
  rcases mem_hideRows hf' with hold | ⟨f,hf,rfl⟩
  · exact mem_keptIds.2 ⟨f',hold,r,hr,rfl⟩
  · obtain ⟨i,hi,hk⟩ := mem_kept.1 hr
    refine mem_keptIds.2 ⟨f, mem_of_getElem? hf, r, mem_kept.2 ⟨i,hi,?_⟩, rfl⟩
    simp only [Bitmap.hides,mem_insertRows,decide_eq_false_iff_not,not_or] at hk
    exact decide_eq_false hk.1

theorem keptIds_compacted {fs : List LiveFile} {path : String} {firstRowId : Option Int}
    {entry : DataFileEntry} {file : DataFile} (hfs : List.Subperm fs c.files)
    (hmerge : MergeOf fs path firstRowId entry file) :
    (c.compacted site m fs ⟨entry, file, ∅⟩).keptIds ⊆ c.keptIds := by
  refine keptIds_subset (fun f' hf' => exists_of_mem_committed hf') fun f' hf' r hr => ?_
  rcases mem_replaced hf' with ⟨hold,-⟩ | rfl
  · exact mem_keptIds.2 ⟨f',hold,r,hr,rfl⟩
  · have hid : r.id ∈ (fs.flatMap (·.kept)).map (·.id) :=
      hmerge.ids.mem_iff.1 (mem_map_of_mem (mem_rows_of_mem_kept hr))
    obtain ⟨r',hr',hid'⟩ := mem_map.1 hid
    obtain ⟨f,hf,hr'⟩ := mem_flatMap.1 hr'
    exact mem_keptIds.2 ⟨f, hfs.subset hf, r', hr', hid'⟩

theorem keptIds_of_sameRows {c' : Content}
    (h : List.Forall₂ LiveFile.SameRows c.files c'.files) : c'.keptIds ⊆ c.keptIds := by
  intro id hid
  obtain ⟨f',hf',r,hr,hid⟩ := mem_keptIds.1 hid
  obtain ⟨i,hi,rfl⟩ := getElem_of_mem hf'
  have hlen := h.length_eq
  have hsame : LiveFile.SameRows c.files[i] c'.files[i] := h.get (by omega) hi
  exact mem_keptIds.2 ⟨c.files[i], getElem_mem _, r, hsame.kept ▸ hr, hid⟩

theorem FreshId.commit (h : FreshId site w.objects snapshotId) (ht : TableOf site w m views c) :
    FreshCommit site w.objects m snapshotId where
  unused := h.unused m ht.stored.currentMetadata
  absent p hp := h.absent p (mem_append_left _ hp)
  vector := h.absent _ (by simp)
  payload := h.absent _ (by simp)

theorem shown_of_append {writer : TableWriter} {writes : List BatchWrite} {new : List LiveFile}
    (hnew : List.Forall₂ (Written writer) writes new) {id : Nat}
    (hid : id ∈ Content.visibleIds tx
      ⟨c.files ++ withEntries new (committedEntries site m (new.map (·.entry))), c.deletes⟩) :
    id ∈ c.visibleIds tx ∨ id ∈ (TableOp.append writer writes snapshotId).appended := by
  obtain ⟨f',hf',r,hr,rfl⟩ := mem_visibleIds.1 hid
  rcases mem_append.1 hf' with hf' | hf'
  · exact .inl (mem_visibleIds.2 ⟨f',hf',r,hr,rfl⟩)
  · obtain ⟨f,hf,hfile,-⟩ := exists_of_mem_committed hf'
    obtain ⟨i,hi,rfl⟩ := getElem_of_mem hf
    have hlen := hnew.length_eq
    have hwritten : Written writer writes[i] new[i] := hnew.get (by omega) hi
    have hrow := mem_rows_of_mem_kept (mem_of_mem_filter hr)
    rw [hfile,hwritten.batch] at hrow
    exact .inr (mem_flatMap.2 ⟨writes[i], getElem_mem _, mem_map_of_mem hrow⟩)

theorem shown_of_delete (d : LiveDelete) :
    Content.visibleIds tx ⟨c.files, c.deletes ++ [d]⟩ ⊆ c.visibleIds tx := by
  intro id hid
  obtain ⟨f,hf,r,hr,hid⟩ := mem_visibleIds.1 hid
  refine mem_visibleIds.2 ⟨f,hf,r,?_,hid⟩
  obtain ⟨hkept,hmask⟩ := mem_filter.1 hr
  rw [Content.masks_append] at hmask
  refine mem_filter.2 ⟨hkept,?_⟩
  simp only [Bool.not_or,Bool.and_eq_true] at hmask
  exact hmask.1

theorem shown_of_rewrite {c' : Content} (h : TableOf site w m views c) {m' : IcebergMetadata}
    {views' : List View} (h' : TableOf site w' m' views' c') (hc : c.Unmasked tx)
    (hkept : c'.keptIds ⊆ c.keptIds) : visibleIds site tx w' ⊆ visibleIds site tx w := by
  rw [h.visibleIds,h'.visibleIds,visibleIds_of_unmasked hc]
  exact fun id hid => hkept (visibleIds_subset_keptIds tx c' hid)

/-- What a step shows was shown before, or it appended it. -/
def Shows (site : Site) (tx : TextForms) (w : Store) (op : TableOp) (w' : Store) : Prop :=
  (∃ m views c, TableOf site w' m views c) ∧
    ∀ id, id ∈ visibleIds site tx w' → id ∈ visibleIds site tx w ∨ id ∈ op.appended

theorem shows_of_subset {op : TableOp} (h : TableOf site w' m views c)
    (hsub : visibleIds site tx w' ⊆ visibleIds site tx w) : Shows site tx w op w' :=
  ⟨⟨m,views,c,h⟩, fun _ hid => .inl (hsub hid)⟩

/-- One operation: the store holds a table again, and shows no row that it did not show before,
save those that an append brings. -/
theorem TableStep.shows {op : TableOp × Int} (hstep : TableStep site fmt tx w op w')
    (h : TableOf site w m views c) : Shows site tx w op.1 w' := by
  obtain ⟨op,nowMs⟩ := op
  obtain ⟨hrun,hfresh,hunmasked⟩ := hstep
  have hsame (hw : w' = w) : Shows site tx w op w' := by
    subst hw
    exact shows_of_subset h (List.Subset.refl _)
  have hrewrite {m' : IcebergMetadata} {views' : List View} {c' : Content}
      (h' : TableOf site w' m' views' c') (hop : op.rewrites) (hkept : c'.keptIds ⊆ c.keptIds) :
      Shows site tx w op w' :=
    shows_of_subset h' (shown_of_rewrite h h' (hunmasked hop c h.currentContent) hkept)
  cases op with
  | append writer writes id =>
    obtain ⟨_,h₁⟩ := TableOp.run_append_ok hrun
    rcases h.appendBatches (hfresh.1.commit h).toFreshSnapshot hfresh.2.1 hfresh.2.2 h₁ with
      ⟨-,hw⟩ | ⟨new,m',v,hnew,-,-,h'⟩
    · exact hsame hw
    · refine ⟨⟨_,_,_,h'⟩, fun id hid => ?_⟩
      rw [h'.visibleIds] at hid
      rw [h.visibleIds]
      exact shown_of_append hnew hid
  | deleteWhere column values id =>
    rcases h.deleteWhere (hfresh.commit h) hrun with
      ⟨-,hw⟩ | ⟨s,m',v,type,d,-,-,-,-,-,h'⟩
    · exact hsame hw
    · refine shows_of_subset h' ?_
      rw [h'.visibleIds,h.visibleIds]
      exact shown_of_delete d
  | deleteRows filePath rowIds id =>
    rcases h.deleteRows (hfresh.commit h) hrun with ⟨-,hw⟩ | ⟨target,dv,m',v,-,-,h'⟩
    · exact hsame hw
    · exact hrewrite h' rfl (keptIds_hideRows target rowIds dv)
  | compaction mode selection ex outputPrefix ts id =>
    obtain ⟨_,h₁⟩ := TableOp.run_compaction_ok hrun
    rcases h.compactionRun (hfresh.1.commit h).toFreshSnapshot hfresh.2 h₁ with
      ⟨-,-,hw⟩ | ⟨fs,entry,file,m',v,hfs,-,-,-,hmerge,-,h'⟩
    · exact hsame hw
    · exact hrewrite h' rfl (keptIds_compacted hfs hmerge)
  | patchIndex policy filePath attempts =>
    obtain ⟨m',views',c',h',hrows⟩ := h.buildAndPatchIndex hfresh.1
      (fun id hid => ((hfresh.2 id hid).commit h).toFreshSnapshot) hrun
    exact hrewrite h' rfl (keptIds_of_sameRows hrows)
  | patchIndexFailed filePath reason id =>
    obtain ⟨m',views',c',h',hrows⟩ := h.patchIndexFailed (hfresh.commit h).toFreshSnapshot hrun
    exact hrewrite h' rfl (keptIds_of_sameRows hrows)

/-- Rows that a snapshot does not show are not shown by a later one either, unless an operation in
between appended them. -/
theorem tableHistory_keeps_deleted {start shown later : Store} {before between : List (TableOp × Int)}
    (h : TableOf site start m views c)
    (hbefore : History (TableStep site fmt tx) start before shown)
    (hbetween : History (TableStep site fmt tx) shown between later) {id : Nat}
    (hhidden : id ∉ visibleIds site tx shown) (hid : id ∈ visibleIds site tx later) :
    ∃ op ∈ between, id ∈ op.1.appended := by
  let IsTable (w : Store) : Prop := ∃ m views c, TableOf site w m views c
  have hstep (w : Store) (op : TableOp × Int) (w' : Store) (ht : IsTable w)
      (hs : TableStep site fmt tx w op w') : Shows site tx w op.1 w' := by
    obtain ⟨m,views,c,ht⟩ := ht
    exact hs.shows ht
  have hshown : IsTable shown :=
    hbefore.invariant IsTable (fun w op w' ht hs => (hstep w op w' ht hs).1) ⟨m,views,c,h⟩
  rcases hbetween.shown_or_gained IsTable (fun w id => id ∈ visibleIds site tx w)
    (fun op id => id ∈ op.1.appended) hstep hshown hid with hin | hgain
  · exact absurd hin hhidden
  · exact hgain

end Rows

/-! A table to run histories on. -/

def demoFormat : FileFormat where
  size _ := 1
  indexOffset _ := 0
  indexLen _ := 0
  columnStats _ := none
  centroid _ := ⟨"", 0⟩
  autoIndex _ := .hnsw
  ftsBuilds _ := false
  bitmapLength _ := 0
  deleteFileSize _ := 0
  avroName _ := true
  parseF32 _ := none
  parseF64 _ := none
  jsonStrings _ := none

def demoForms : TextForms := ⟨fun _ => "", fun _ => "", fun _ => ""⟩

def demoPlanner (minFiles : Nat) : CompactionPlanner where
  config := ⟨10, minFiles, 10⟩
  sort := List.insertionSort fun a b => a.fileSizeBytes ≤ b.fileSizeBytes
  sort_perm files := perm_insertionSort _ files
  sort_sorted files := by
    have : Std.Total fun a b : DataFileEntry => a.fileSizeBytes ≤ b.fileSizeBytes :=
      ⟨fun a b => Nat.le_total _ _⟩
    have : IsTrans DataFileEntry fun a b => a.fileSizeBytes ≤ b.fileSizeBytes :=
      ⟨fun a b c => Nat.le_trans⟩
    exact pairwise_insertionSort _ files

def demoPolicy : VectorStoragePolicy := ⟨"embedding", 1, .f32, true, none, none⟩

def demoExecutor : CompactionExecutor := ⟨demoPolicy, .auto, false⟩

def demoBatch (id : Nat) (key : String) : BatchWrite where
  batch := ⟨[⟨"key", .utf8, false⟩], [⟨id, [some (.str key)]⟩],
    by simp [fits, Field.admits, Scalar.hasType]⟩
  embeddings := [[0]]
  batchId := none
  deferred := false

def demoInsert (session : String) (writes : List BatchWrite) (id : SnapshotId) : TableOp :=
  .append ⟨demoPolicy, none, session, none⟩ writes id

def demoRows : TableOp := demoInsert "s" [demoBatch 7 "a", demoBatch 8 "b", demoBatch 9 "c"] 1

def demoCompaction (mode : CompactionMode) (ts : Nat) (id : SnapshotId) : TableOp :=
  .compaction mode (demoPlanner 1).selection demoExecutor "data" ts id

def TableOp.apply (op : TableOp) (w : Store) : Store :=
  ((op.program demoSite demoFormat 0).run w).2

theorem TableOp.run_apply {op : TableOp} {w : Store}
    (h : ((op.program demoSite demoFormat 0).run w).1 = .ok ()) :
    (op.program demoSite demoFormat 0).run w = (.ok (), op.apply w) := Prod.ext h rfl

theorem tableOf_demoTable (formatVersion : Nat) :
    TableOf demoSite (demoTable formatVersion) (demoMetadata formatVersion) [] ⟨[], []⟩ where
  reliable _ := rfl
  stored := stored_demoTable formatVersion
  location := rfl
  holds := ⟨rfl, rfl, by simp, by simp, by simp⟩

theorem newData_of_ne {objects : String → Option Object} {path : String} (h : objects path = none)
    (hp : ¬"db/docs/metadata/".toList <+: path.toList) : NewData demoSite objects path where
  absent := h
  data p he := by
    refine hp ?_
    have he' : path = "db/docs/metadata/" ++ p.name := he
    rw [he',String.toList_append]
    exact prefix_append _ _

theorem tableHistory_keeps_deleted_appended :
    ∃ op ∈ [(demoInsert "s" [demoBatch 7 "a"] 1, (0 : Int)), (demoCompaction .incremental 1 2, 0)],
      7 ∈ op.1.appended := by
  let w₁ := (demoInsert "s" [demoBatch 7 "a"] 1).apply (demoTable 2)
  let w₂ := (demoCompaction .incremental 1 2).apply w₁
  have h₁ : TableStep demoSite demoFormat demoForms (demoTable 2)
      (demoInsert "s" [demoBatch 7 "a"] 1, 0) w₁ := by
    refine ⟨TableOp.run_apply (by decide), ⟨⟨by decide, by decide⟩, ?_, by decide⟩, fun h => nomatch h⟩
    intro p hp
    refine newData_of_ne ?_ ?_ <;> revert p <;> decide
  have h₂ : TableStep demoSite demoFormat demoForms w₁ (demoCompaction .incremental 1 2, 0) w₂ := by
    refine ⟨TableOp.run_apply (by decide), ⟨⟨by decide, by decide⟩, newData_of_ne (by decide)
      (by decide)⟩, fun _ c hc => Content.unmasked_of_no_deletes (isEmpty_iff.1 ?_)⟩
    revert c
    decide
  exact tableHistory_keeps_deleted (tableOf_demoTable 2) .start (.step (.step .start h₁) h₂)
    (by decide) (by decide)

/-- A row is written and deleted by value. The compaction that follows takes it over, and the
delete does not reach the new snapshot. -/
theorem compaction_shows_deleted_row :
    let insert := demoInsert "s" [demoBatch 7 "a"] 1
    let delete := TableOp.deleteWhere "key" ["a"] 2
    let compaction := demoCompaction .incremental 1 3
    let w₁ := insert.apply (demoTable 2)
    let w₂ := delete.apply w₁
    let w₃ := compaction.apply w₂
    ((insert.program demoSite demoFormat 0).run (demoTable 2)).1 = .ok () ∧
      ((delete.program demoSite demoFormat 0).run w₁).1 = .ok () ∧
      ((compaction.program demoSite demoFormat 0).run w₂).1 = .ok () ∧
      7 ∈ visibleIds demoSite demoForms w₁ ∧ 7 ∉ visibleIds demoSite demoForms w₂ ∧
      7 ∈ visibleIds demoSite demoForms w₃ ∧ 7 ∉ compaction.appended := by
  decide

end AiLake
