import AiLake.RewriteSpec

/-! A compaction leaves the merged file in place of the selected ones, with the rows that their
deletion vectors left, and no equality delete. -/
namespace AiLake

open StoreProgram List Prog

variable {site : Site} {fmt : FileFormat} {m : IcebergMetadata} {views : List View} {c : Content}
  {w w' : Store} {snapshotId : SnapshotId} {nowMs : Int}

section Merge

variable {firstRowId : Option Int}

/-- The graph of the dominant file is kept: no rebuild is forced, the file has no deletion vector
and two fifths of the rows, and its index is a graph. -/
def reusesGraph (strategy : CompactionIndexStrategy) (fs : List LiveFile) : Bool :=
  match fs.map (·.entry) with
  | [] => false
  | first :: rest =>
    let dom := CompactionExecutor.dominant first rest
    strategy ≠ .forceIvfPq ∧ dom.deletionVector = none ∧
      2 * (fs.map (·.entry.recordCount)).sum ≤ 5 * dom.recordCount ∧
      ((CompactionExecutor.splitDominant dom.path (fs.map (·.read))).1.bind fun read =>
        CompactionExecutor.reusableGraph read.file).isSome

def takenRowId (mode : CompactionMode) (strategy : CompactionIndexStrategy) (fs : List LiveFile) :
    Option Int :=
  match mode, fs.map (·.entry) with
  | .incremental, first :: rest =>
    if reusesGraph strategy fs then (CompactionExecutor.dominant first rest).firstRowId
    else minFirstRowId (fs.map (·.entry))
  | _, entries => minFirstRowId entries

/-- A file that merges live files, with its entry. -/
structure MergeOf (fs : List LiveFile) (path : String) (firstRowId : Option Int)
    (entry : DataFileEntry) (file : DataFile) : Prop where
  entryPath : entry.path = path
  recordCount : entry.recordCount = file.batch.numRows
  deletionVector : entry.deletionVector = none
  partitionValue : entry.partitionValue = none
  firstRowId : entry.firstRowId = firstRowId
  ids : (file.batch.rows.map (·.id)).Perm ((fs.flatMap (·.kept)).map (·.id))

def Merges (site : Site) (fs : List LiveFile) (path : String) (firstRowId : Option Int)
    (w w' : Store) (entry : DataFileEntry) : Prop :=
  ∃ file, w' = w.write (site.locate path) (.dataFile file) ∧ MergeOf fs path firstRowId entry file

variable {ex : CompactionExecutor} {path : String} {entry : DataFileEntry} {fs : List LiveFile}

theorem ids_of_mergeReads_files {merged : RecordBatch × List (List F32)}
    (h : mergeReads (fs.map (·.read)) = .ok merged) :
    merged.1.rows.map (·.id) = (fs.flatMap (·.kept)).map (·.id) := by
  rw [ids_of_mergeReads h,flatMap_map]
  simp only [LiveFile.rows_read]

theorem run_writeMerged_ok (hr : w.Reliable) {entries : List DataFileEntry} {batch : RecordBatch}
    {embeddings : List (List F32)} {index : VectorIndex}
    (hids : (batch.rows.map (·.id)).Perm ((fs.flatMap (·.kept)).map (·.id)))
    (h : (ex.writeMerged site fmt entries path batch embeddings index firstRowId).run w =
      (.ok entry, w')) : Merges site fs path firstRowId w w' entry := by
  obtain ⟨file,w₁,h₁,h⟩ := run_bind_ok.1 h
  rw [run_ofExcept] at h₁
  obtain ⟨hfile,rfl⟩ := Prod.mk.inj h₁
  obtain ⟨_,w₂,h₂,h⟩ := run_bind_ok.1 h
  rw [run_putObject_reliable hr] at h₂
  cases h₂
  obtain ⟨_,w₃,h₃,h⟩ := run_bind_ok.1 h
  rw [run_ofExcept] at h₃
  obtain ⟨-,rfl⟩ := Prod.mk.inj h₃
  cases h
  refine ⟨file,rfl,rfl,rfl,rfl,rfl,rfl,?_⟩
  rw [batch_of_writeDataFile hfile]
  exact hids

variable (site fmt) in
/-- What every merge with an index does once the files are read. -/
def mergeAndWrite (ex : CompactionExecutor) (entries : List DataFileEntry) (path : String)
    (reads : List SourceRead) (index : List (List F32) → VectorIndex) (firstRowId : Option Int) :
    Program DataFileEntry := do
  let merged ← Prog.ofExcept (mergeReads reads)
  ex.writeMerged site fmt entries path merged.1 merged.2 (index merged.2) firstRowId

theorem run_mergeAndWrite_ok (hr : w.Reliable) {entries : List DataFileEntry}
    {order : List LiveFile} {index : List (List F32) → VectorIndex} (horder : order.Perm fs)
    (h : (mergeAndWrite site fmt ex entries path (order.map (·.read)) index firstRowId).run w =
      (.ok entry, w')) : Merges site fs path firstRowId w w' entry := by
  obtain ⟨merged,w₁,h₁,hwrite⟩ := run_bind_ok.1 h
  rw [run_ofExcept] at h₁
  obtain ⟨hmerged,rfl⟩ := Prod.mk.inj h₁
  refine run_writeMerged_ok hr ?_ hwrite
  rw [ids_of_mergeReads_files hmerged]
  exact (horder.flatMap_right _).map _

def Unreadable (fs : List LiveFile) : Prop := fs = [] ∨ ∃ f ∈ fs, f.file.batch.rows = []

theorem run_compact (hr : w.Reliable) (hfs : ∀ f ∈ fs, f.Stored site w.objects) :
    (Unreadable fs ∧ ∃ e, (ex.compact site fmt (fs.map (·.entry)) path).run w = (.error e, w)) ∨
      ¬Unreadable fs ∧ (ex.compact site fmt (fs.map (·.entry)) path).run w =
        (mergeAndWrite site fmt ex (fs.map (·.entry)) path (fs.map (·.read))
          (fun vectors => ⟨ex.indexKind fmt vectors.length, vectors.length⟩)
          (minFirstRowId (fs.map (·.entry)))).run w := by
  cases fs with
  | nil => exact .inl ⟨.inl rfl, _, rfl⟩
  | cons f rest =>
    simp only [CompactionExecutor.compact,map_cons,isEmpty_cons,Bool.false_eq_true,
      if_false,run_bind]
    rw [← map_cons (f := LiveFile.entry)]
    rcases run_readFilesParallel hr hfs with ⟨hrows,hrun⟩ | ⟨hempty,e,hrun⟩
    · right
      rw [hrun]
      refine ⟨?_, (run_bind ..).symm⟩
      rintro (hnil | ⟨g,hg,hempty⟩)
      · cases hnil
      · exact hrows g hg hempty
    · exact .inl ⟨.inr hempty, e, by rw [hrun]⟩

theorem run_compact_ok (hr : w.Reliable) (hfs : ∀ f ∈ fs, f.Stored site w.objects)
    (h : (ex.compact site fmt (fs.map (·.entry)) path).run w = (.ok entry, w')) :
    Merges site fs path (minFirstRowId (fs.map (·.entry))) w w' entry := by
  rcases run_compact hr hfs with ⟨-,e,hrun⟩ | ⟨-,hrun⟩
  · cases hrun.symm.trans h
  · exact run_mergeAndWrite_ok hr (.refl fs) (hrun.symm.trans h)

theorem run_compactDeferred_ok (hr : w.Reliable) (hfs : ∀ f ∈ fs, f.Stored site w.objects)
    (h : (ex.compactDeferred site fmt (fs.map (·.entry)) path).run w = (.ok entry, w')) :
    Merges site fs path (minFirstRowId (fs.map (·.entry))) w w' entry := by
  unfold CompactionExecutor.compactDeferred at h
  split at h
  · cases h
  · obtain ⟨reads,w₁,h₁,hrest⟩ := run_bind_ok.1 h
    obtain ⟨rfl,rfl⟩ := run_readFilesParallel_ok hr hfs h₁
    obtain ⟨merged,w₂,h₂,hwrite⟩ := run_bind_ok.1 hrest
    rw [run_ofExcept] at h₂
    obtain ⟨hmerged,rfl⟩ := Prod.mk.inj h₂
    obtain ⟨file,w₃,h₃,hput⟩ := run_bind_ok.1 hwrite
    rw [run_ofExcept] at h₃
    obtain ⟨hfile,rfl⟩ := Prod.mk.inj h₃
    obtain ⟨_,w₄,h₄,hdone⟩ := run_bind_ok.1 hput
    rw [run_putObject_reliable hr] at h₄
    cases h₄
    cases hdone
    refine ⟨file,rfl,rfl,rfl,rfl,rfl,rfl,?_⟩
    rw [batch_of_writeDataFile hfile]
    exact .of_eq (ids_of_mergeReads_files hmerged)

theorem perm_split_path {α : Type} {pathOf : α → String} {l : List α} {p : String} {dom : α}
    (hn : (l.map pathOf).Nodup) (hdom : (l.filter fun x => pathOf x = p).getLast? = some dom) :
    (dom :: l.filter fun x => pathOf x ≠ p).Perm l := by
  have hle : (l.filter fun x => pathOf x = p).length ≤ 1 := by
    have hsub : ((l.filter fun x => pathOf x = p).map pathOf).Nodup :=
      hn.sublist (filter_sublist.map _)
    have hconst : ∀ y ∈ (l.filter fun x => pathOf x = p).map pathOf, y = p := by
      intro y hy
      obtain ⟨x,hx,rfl⟩ := mem_map.1 hy
      exact of_decide_eq_true (mem_filter.1 hx).2
    rw [eq_replicate_of_mem hconst,nodup_replicate,length_map] at hsub
    exact hsub
  have hone : l.filter (fun x => pathOf x = p) = [dom] := by
    match hf : l.filter (fun x => pathOf x = p) with
    | [] => simp [hf] at hdom
    | [x] => simpa [hf] using hdom
    | x :: y :: rest => simp [hf] at hle
  have hperm := filter_append_perm (fun x => decide (pathOf x = p)) l
  rw [hone] at hperm
  simpa using hperm

/-- The dominant file, of which the last entry counts, and the other ones. -/
def dominantFirst (fs : List LiveFile) : List LiveFile :=
  match fs.map (·.entry) with
  | [] => []
  | first :: rest =>
    let path := (CompactionExecutor.dominant first rest).path
    (fs.filter fun f => f.entry.path = path).getLast?.toList ++
      fs.filter fun f => f.entry.path ≠ path

theorem perm_dominantFirst {fs : List LiveFile} (hn : (fs.map (·.entry.path)).Nodup) :
    (dominantFirst fs).Perm fs := by
  cases fs with
  | nil => exact .refl _
  | cons f rest =>
    simp only [dominantFirst,map_cons]
    obtain ⟨p,hp⟩ : ∃ p, p = (CompactionExecutor.dominant f.entry (rest.map (·.entry))).path := ⟨_,rfl⟩
    rw [← hp]
    cases hlast : ((f :: rest).filter fun f => f.entry.path = p).getLast? with
    | none =>
      rw [getLast?_eq_none_iff,filter_eq_nil_iff] at hlast
      refine .of_eq (filter_eq_self.2 fun g hg => ?_)
      simpa using hlast g hg
    | some dom => exact perm_split_path hn hlast

theorem splitDominant_map_read (p : String) (fs : List LiveFile) :
    CompactionExecutor.splitDominant p (fs.map (·.read)) =
      ((fs.filter fun f => f.entry.path = p).getLast?.map (·.read),
        (fs.filter fun f => f.entry.path ≠ p).map (·.read)) := by
  simp only [CompactionExecutor.splitDominant,filter_map,getLast?_map,Function.comp_def,
    LiveFile.entry_read]
  rfl

theorem takenRowId_of_rebuilt {strategy : CompactionIndexStrategy}
    (h : reusesGraph strategy fs = false) :
    takenRowId .incremental strategy fs = minFirstRowId (fs.map (·.entry)) := by
  cases fs with
  | nil => rfl
  | cons f rest => simp [takenRowId,h]

theorem run_compactIncremental (hr : w.Reliable) (hfs : ∀ f ∈ fs, f.Stored site w.objects) :
    (Unreadable fs ∧
      ∃ e, (ex.compactIncremental site fmt (fs.map (·.entry)) path).run w = (.error e, w)) ∨
    (reusesGraph ex.strategy fs = false ∧
      (ex.compactIncremental site fmt (fs.map (·.entry)) path).run w =
        (ex.compact site fmt (fs.map (·.entry)) path).run w) ∨
    (¬Unreadable fs ∧ reusesGraph ex.strategy fs = true ∧ ∃ dom others nodes,
      dominantFirst fs = dom :: others ∧ CompactionExecutor.reusableGraph dom.file = some nodes ∧
      (ex.compactIncremental site fmt (fs.map (·.entry)) path).run w =
        (mergeAndWrite site fmt ex (fs.map (·.entry)) path ((dom :: others).map (·.read))
          (fun _ => ⟨.hnsw, nodes + (others.flatMap (·.read.vectors)).length⟩)
          (takenRowId .incremental ex.strategy fs)).run w) := by
  cases fs with
  | nil => exact .inl ⟨.inl rfl, _, rfl⟩
  | cons f rest =>
    simp only [map_cons,CompactionExecutor.compactIncremental]
    split
    · rename_i hivf
      exact .inr (.inl ⟨by simp [reusesGraph,hivf], rfl⟩)
    rename_i hivf
    split
    · rename_i hdv
      exact .inr (.inl ⟨by simp [reusesGraph,Option.isSome_iff_ne_none.1 hdv], rfl⟩)
    rename_i hdv
    split
    · rename_i hshare
      refine .inr (.inl ⟨decide_eq_false fun hb => ?_, rfl⟩)
      have hle := hb.2.2.1
      simp only [map_cons,map_map,Function.comp_def] at hle hshare
      omega
    rename_i hshare
    rw [run_bind,← map_cons (f := LiveFile.entry)]
    rcases run_readFilesParallel hr hfs with ⟨hrows,hrun⟩ | ⟨hempty,e,hrun⟩
    · rw [hrun]
      simp only
      split
      · rename_i hnone
        refine .inr (.inl ⟨decide_eq_false fun hb => ?_, rfl⟩)
        have hsome := hb.2.2.2
        simp only at hsome
        rw [hnone] at hsome
        cases hsome
      rename_i domRead otherReads hsplit
      split
      · rename_i hgraph
        refine .inr (.inl ⟨decide_eq_false fun hb => ?_, rfl⟩)
        have hsome := hb.2.2.2
        simp only at hsome
        rw [hsplit,Option.bind_some,hgraph] at hsome
        cases hsome
      rename_i nodes hgraph
      have hreuses : reusesGraph ex.strategy (f :: rest) = true := by
        refine decide_eq_true ⟨hivf, by simpa using hdv, ?_, ?_⟩
        · simp only [map_cons,map_map,Function.comp_def] at hshare ⊢
          omega
        · simp only
          rw [hsplit,Option.bind_some,hgraph]
          rfl
      rw [splitDominant_map_read] at hsplit
      obtain ⟨hdom,rfl⟩ := Prod.mk.inj hsplit
      obtain ⟨dom,hlast,rfl⟩ := Option.map_eq_some_iff.1 hdom
      refine .inr (.inr ⟨?_, hreuses, dom, (f :: rest).filter fun g => g.entry.path ≠
        (CompactionExecutor.dominant f.entry (rest.map (·.entry))).path, nodes, ?_, hgraph, ?_⟩)
      · rintro (hnil | ⟨g,hg,hempty⟩)
        · cases hnil
        · exact hrows g hg hempty
      · simp only [dominantFirst,map_cons]
        rw [hlast]
        rfl
      · simp only [takenRowId,hreuses,map_cons,if_true,flatMap_map]
        rfl
    · exact .inl ⟨.inr hempty, e, by rw [hrun]⟩

theorem run_compactIncremental_ok (hr : w.Reliable) (hfs : ∀ f ∈ fs, f.Stored site w.objects)
    (hn : (fs.map (·.entry.path)).Nodup)
    (h : (ex.compactIncremental site fmt (fs.map (·.entry)) path).run w = (.ok entry, w')) :
    Merges site fs path (takenRowId .incremental ex.strategy fs) w w' entry := by
  rcases run_compactIncremental hr hfs with
    ⟨-,e,hrun⟩ | ⟨hgraph,hrun⟩ | ⟨-,-,dom,others,nodes,horder,-,hrun⟩
  · cases hrun.symm.trans h
  · rw [takenRowId_of_rebuilt hgraph]
    exact run_compact_ok hr hfs (hrun.symm.trans h)
  · exact run_mergeAndWrite_ok hr (horder ▸ perm_dominantFirst hn) (hrun.symm.trans h)

theorem run_merge_ok (mode : CompactionMode) (hr : w.Reliable)
    (hfs : ∀ f ∈ fs, f.Stored site w.objects) (hn : (fs.map (·.entry.path)).Nodup)
    (h : (mode.merge site fmt ex (fs.map (·.entry)) path).run w = (.ok entry, w')) :
    Merges site fs path (takenRowId mode ex.strategy fs) w w' entry := by
  cases mode with
  | full => exact run_compact_ok hr hfs h
  | incremental => exact run_compactIncremental_ok hr hfs hn h
  | deferred => exact run_compactDeferred_ok hr hfs h

def CarriesKeys (fmt : FileFormat) (files : List DataFileEntry) (entry : DataFileEntry) : Prop :=
  entry.batchId = mergeBatchIds fmt files

/-! A merge writes its one file and nothing else, also when it fails. -/

variable {files : List DataFileEntry}

theorem confined_writeMerged {batch : RecordBatch} {embeddings : List (List F32)}
    {index : VectorIndex} :
    (ex.writeMerged site fmt files path batch embeddings index firstRowId).Confined
      {site.locate path} (CarriesKeys fmt files) :=
  (touches_ofExcept _).confined fun _ => (touches_putObject (Set.mem_singleton _) _).confined fun _ =>
    (touches_ofExcept _).confined fun _ => confined_pure rfl

theorem confined_compact : (ex.compact site fmt files path).Confined {site.locate path}
    (CarriesKeys fmt files) := by
  unfold CompactionExecutor.compact
  split
  · exact confined_fail _
  · exact (readOnly_readFilesParallel files).touches.confined fun _ =>
      (touches_ofExcept _).confined fun _ => confined_writeMerged

theorem confined_compactIncremental : (ex.compactIncremental site fmt files path).Confined
    {site.locate path} (CarriesKeys fmt files) := by
  cases files with
  | nil => exact confined_fail _
  | cons first rest =>
    unfold CompactionExecutor.compactIncremental
    simp only
    split
    · exact confined_compact
    split
    · exact confined_compact
    split
    · exact confined_compact
    refine (readOnly_readFilesParallel _).touches.confined fun reads => ?_
    split
    · exact confined_compact
    · split
      · exact confined_compact
      · exact (touches_ofExcept _).confined fun _ => confined_writeMerged

theorem confined_compactDeferred : (ex.compactDeferred site fmt files path).Confined
    {site.locate path} (CarriesKeys fmt files) := by
  unfold CompactionExecutor.compactDeferred
  split
  · exact confined_fail _
  · exact (readOnly_readFilesParallel files).touches.confined fun _ =>
      (touches_ofExcept _).confined fun _ => (touches_ofExcept _).confined fun _ =>
        (touches_putObject (Set.mem_singleton _) _).confined fun _ => confined_pure rfl

theorem confined_merge (mode : CompactionMode) : (mode.merge site fmt ex files path).Confined
    {site.locate path} (CarriesKeys fmt files) := by
  cases mode with
  | full => exact confined_compact
  | incremental => exact confined_compactIncremental
  | deferred => exact confined_compactDeferred

end Merge

section Select

theorem CompactionPlanner.plan_subperm (planner : CompactionPlanner) (files : List DataFileEntry) :
    List.Subperm (planner.plan files) files := by
  have hforeign : List.Subperm (planner.sort (files.filter (·.isForeign)))
      (files.filter (·.isForeign)) := (planner.sort_perm _).subperm
  unfold CompactionPlanner.plan
  simp only
  split
  · split
    · exact nil_subperm
    · exact ((take_sublist _ _).subperm.trans hforeign).trans filter_sublist.subperm
  · refine (take_sublist _ _).subperm.trans ?_
    have hcandidates := (planner.sort_perm ((files.filter fun f => !f.isForeign).filter fun f =>
      f.fileSizeBytes < planner.config.targetFileSizeBytes)).subperm.trans
      filter_sublist.subperm
    exact (hforeign.append hcandidates).trans
      (filter_append_perm (fun f : DataFileEntry => f.isForeign) files).subperm

/-- A choice of files, each taken at most once, in any order. -/
structure FileSelection where
  pick : List DataFileEntry → List DataFileEntry
  subperm : ∀ files, List.Subperm (pick files) files

def CompactionPlanner.selection (planner : CompactionPlanner) : FileSelection :=
  ⟨planner.plan, planner.plan_subperm⟩

theorem exists_of_subperm_map {α β : Type} {g : α → β} {l : List α} {l' : List β}
    (h : List.Subperm l' (l.map g)) : ∃ k, List.Subperm k l ∧ k.map g = l' := by
  obtain ⟨l₁,hperm,hsub⟩ := h
  obtain ⟨k,hk,rfl⟩ := sublist_map_iff.1 hsub
  have hcomp : Relation.Comp (fun a b => a = List.map g b) List.Perm l' k := by
    rw [eq_map_comp_perm]
    exact hperm.symm
  obtain ⟨k',rfl,hk'⟩ := hcomp
  exact ⟨k', hk'.subperm.trans hk.subperm, rfl⟩

theorem nodup_map_of_subperm {α β : Type} {g : α → β} {k l : List α} (h : List.Subperm k l)
    (hn : (l.map g).Nodup) : (k.map g).Nodup := by
  obtain ⟨k',hperm,hsub⟩ := h
  exact ((hperm.map g).nodup_iff).1 (hn.sublist (hsub.map g))

end Select

section Run

variable {fs : List LiveFile}
  {mode : CompactionMode} {selection : FileSelection} {outputPrefix k : String} {ts : Nat}

theorem TableOf.nodup_paths (h : TableOf site w m views c) : (c.files.map (·.entry.path)).Nodup := by
  have hn := h.holds.apart
  have hcomp : (c.files.map fun f => site.locate f.entry.path) =
      (c.files.map (·.entry.path)).map site.locate := by simp
  rw [hcomp] at hn
  exact hn.of_map _

def Content.selected (c : Content) (entries : List DataFileEntry) : List LiveFile :=
  entries.filterMap fun e => c.files.find? fun f => f.entry.path = e.path

theorem Content.selected_map (hn : (c.files.map (·.entry.path)).Nodup)
    (hfs : List.Subperm fs c.files) : c.selected (fs.map (·.entry)) = fs := by
  have hfind : ∀ f ∈ fs, (c.files.find? fun g => g.entry.path = f.entry.path) = some f :=
    fun f hf => find?_eq_of_nodup hn (hfs.subset hf)
  rw [Content.selected,filterMap_map]
  calc fs.filterMap (fun f => c.files.find? fun g => g.entry.path = f.entry.path)
      = fs.filterMap some := filterMap_congr hfind
    _ = fs := filterMap_some

/-- The files of the next snapshot: those that were not selected, and the merged one. -/
def Content.replaced (c : Content) (fs : List LiveFile) (merged : LiveFile) : List LiveFile :=
  (c.files.filter fun f => f.entry.path ∉ fs.map (·.entry.path)) ++ [merged]

/-- The content after a compaction; there are no equality deletes in it. -/
def Content.compacted (site : Site) (m : IcebergMetadata) (c : Content) (fs : List LiveFile)
    (merged : LiveFile) : Content :=
  ⟨withEntries (c.replaced fs merged)
    (committedEntries site m ((c.replaced fs merged).map (·.entry))), []⟩

theorem TableOf.run_buildReplaceFileList (h : TableOf site w m views c) (merged : LiveFile) :
    (buildReplaceFileList site (fs.map (·.entry)) merged.entry).run w =
      (.ok ((c.replaced fs merged).map (·.entry)), w) := by
  simp only [buildReplaceFileList,run_bind,h.run_listFiles,run_pure,Content.replaced,
    map_append,filter_map,map_map,Function.comp_def]
  rfl

theorem TableOf.deleteOldFiles (h : TableOf site w m views c)
    (hdata : ∀ f ∈ fs, ∃ file, w.objects (site.locate f.entry.path) = some (.dataFile file))
    (hn : (fs.map fun f => site.locate f.entry.path).Nodup)
    (hlive : ∀ f ∈ fs, ∀ g ∈ c.files, site.locate g.entry.path ≠ site.locate f.entry.path) :
    ∃ w', (deleteOldFiles site (fs.map (·.entry))).run w = (.ok (), w') ∧
      TableOf site w' m views c := by
  induction fs generalizing w with
  | nil => exact ⟨w,rfl,h⟩
  | cons f rest ih =>
    obtain ⟨file,hfile⟩ := hdata f mem_cons_self
    rw [map_cons,nodup_cons] at hn
    have hremoved := h.remove hfile (hlive f mem_cons_self)
    obtain ⟨w',hrun,htable⟩ := ih hremoved
      (fun g hg => by
        obtain ⟨file',hfile'⟩ := hdata g (mem_cons_of_mem _ hg)
        have hne : site.locate g.entry.path ≠ site.locate f.entry.path := fun he =>
          hn.1 (he ▸ mem_map_of_mem (f := fun f => site.locate f.entry.path) hg)
        exact ⟨file', by rw [World.remove_objects,Function.update_of_ne hne,hfile']⟩)
      hn.2 (fun g hg => hlive g (mem_cons_of_mem _ hg))
    refine ⟨w',?_,htable⟩
    simp only [map_cons,AiLake.deleteOldFiles,run_bind,
      run_delete_of_reliable h.reliable]
    exact hrun

variable {entry : DataFileEntry} {file : DataFile}

theorem mem_replaced {merged f : LiveFile} (h : f ∈ c.replaced fs merged) :
    (f ∈ c.files ∧ f.entry.path ∉ fs.map (·.entry.path)) ∨ f = merged := by
  rcases mem_append.1 h with h | h
  · exact .inl ⟨mem_of_mem_filter h, of_decide_eq_true (mem_filter.1 h).2⟩
  · exact .inr (mem_singleton.1 h)

theorem TableOf.nodup_replaced (h : TableOf site w m views c) {path : String}
    (hnew : NewData site w.objects path) (hentry : entry.path = path) :
    ((c.replaced fs ⟨entry, file, ∅⟩).map fun f => site.locate f.entry.path).Nodup := by
  rw [Content.replaced,map_append,nodup_append]
  refine ⟨h.holds.apart.sublist (filter_sublist.map _), by simp, ?_⟩
  rintro k hk k' hk' rfl
  obtain ⟨f,hf,hfk⟩ := mem_map.1 hk
  have hk₀ : k = site.locate path := by simpa [hentry] using hk'
  have hdata := (h.holds.live f (mem_of_mem_filter hf)).data
  rw [hfk,hk₀,hnew.absent] at hdata
  cases hdata

theorem TableOf.locate_ne_of_replaced (h : TableOf site w m views c) {path : String}
    (hnew : NewData site w.objects path) (hentry : entry.path = path)
    (hfs : List.Subperm fs c.files) {f g : LiveFile} (hf : f ∈ fs)
    (hg : g ∈ (c.compacted site m fs ⟨entry, file, ∅⟩).files) :
    site.locate g.entry.path ≠ site.locate f.entry.path := by
  obtain ⟨g₀,hg₀,hR,-,-⟩ := exists_of_mem_withEntries (forall₂_committedEntries _) hg
  rw [hR.locate]
  intro he
  have hfc := hfs.subset hf
  rcases mem_replaced hg₀ with ⟨hg₀,hpath⟩ | rfl
  · have hsame := inj_on_of_nodup_map h.holds.apart hg₀ hfc he
    exact hpath (hsame ▸ mem_map_of_mem hf)
  · have hdata := (h.holds.live f hfc).data
    rw [← he,hentry,hnew.absent] at hdata
    cases hdata

theorem TableOf.commitCompaction (h : TableOf site w m views c)
    (hfresh : FreshSnapshot site w.objects m snapshotId) {path : String}
    (hnew : NewData site w.objects path) (hfs : List.Subperm fs c.files)
    (hentry : entry.path = path) (hdv : entry.deletionVector = none) {u : Unit}
    (hrun : (commitCompaction site (fs.map (·.entry)) entry snapshotId nowMs).run
      (w.write (site.locate path) (.dataFile file)) = (.ok u, w')) :
    ∃ m' v, CommitOf site m (replaceSnapshot snapshotId m.currentSnapshotId
        ((c.replaced fs ⟨entry, file, ∅⟩).map (·.entry))) nowMs m' ∧
      TableOf site w' m' (views ++ [v]) (c.compacted site m fs ⟨entry, file, ∅⟩) := by
  have hw := h.writeData hnew (.dataFile file)
  have hfresh' := hfresh.update (fun p _ => hnew.data p) (some (.dataFile file))
  obtain ⟨files,w₁,h₁,hrest⟩ := run_bind_ok.1 hrun
  rw [hw.run_buildReplaceFileList ⟨entry,file,∅⟩] at h₁
  cases h₁
  obtain ⟨parent,w₂,h₂,hrest⟩ := run_bind_ok.1 hrest
  rw [hw.run_currentSnapshotOrNone] at h₂
  cases h₂
  obtain ⟨id,w₃,h₃,hold⟩ := run_bind_ok.1 hrest
  have hlive : ∀ f ∈ c.replaced fs ⟨entry,file,∅⟩,
      f.Stored site (w.write (site.locate path) (.dataFile file)).objects := by
    intro f hf
    rcases mem_replaced hf with ⟨hf,-⟩ | rfl
    · exact hw.holds.live f hf
    · exact ⟨by simp [hentry], by simp [hdv,bitmapOf]⟩
  obtain ⟨m',v,hm',htable⟩ := hw.replace h₃ hfresh' hlive (h.nodup_replaced hnew hentry)
  have hkeep := hw.keepsContent_commit h₃ hfresh'
  obtain ⟨w₄,h₄,htable'⟩ := htable.deleteOldFiles
    (fun f hf => ⟨f.file, hkeep _ _ (hw.holds.live f (hfs.subset hf)).data rfl⟩)
    (nodup_map_of_subperm hfs h.holds.apart)
    (fun f hf g hg => h.locate_ne_of_replaced hnew hentry hfs hf hg)
  rw [h₄] at hold
  cases hold
  exact ⟨m',v,hm',htable'⟩

theorem strategy_withEffectiveFts (ex : CompactionExecutor) (props : Properties) :
    (ex.withEffectiveFts props).strategy = ex.strategy := by
  unfold CompactionExecutor.withEffectiveFts
  split <;> rfl

theorem TableOf.run_effectiveExecutor (h : TableOf site w m views c) (mode : CompactionMode)
    (ex : CompactionExecutor) : ∃ ex', (effectiveExecutor site mode ex).run w = (.ok ex', w) ∧
      ex'.strategy = ex.strategy := by
  cases mode with
  | deferred => exact ⟨ex,rfl,rfl⟩
  | _ =>
    refine ⟨_, ?_, strategy_withEffectiveFts ex m.toTableMetadata.properties⟩
    simp only [effectiveExecutor,run_bind,run_attempt,h.run_loadTable,run_pure]

/-- A compaction either finds nothing to do, or writes a merge of the files it selected and commits
it. -/
theorem TableOf.compactionRun_cases (h : TableOf site w m views c) {ex : CompactionExecutor}
    {result : Option DataFileEntry}
    (hrun : (compactionRun site fmt mode selection.pick ex outputPrefix ts snapshotId nowMs).run w =
      (.ok result, w')) : (result = none ∧ selection.pick (c.files.map (·.entry)) = [] ∧ w' = w) ∨
    ∃ fs entry file u, List.Subperm fs c.files ∧
      fs.map (·.entry) = selection.pick (c.files.map (·.entry)) ∧ fs ≠ [] ∧ result = some entry ∧
      MergeOf fs (outputPath outputPrefix ts) (takenRowId mode ex.strategy fs) entry file ∧
      CarriesKeys fmt (fs.map (·.entry)) entry ∧
      (AiLake.commitCompaction site (fs.map (·.entry)) entry snapshotId nowMs).run
        (w.write (site.locate (outputPath outputPrefix ts)) (.dataFile file)) = (.ok u, w') := by
  obtain ⟨fs,hfs,hentries⟩ := exists_of_subperm_map (selection.subperm (c.files.map (·.entry)))
  obtain ⟨all,w₁,h₁,hrest⟩ := run_bind_ok.1 hrun
  rw [h.run_listFiles] at h₁
  cases h₁
  rw [← hentries] at hrest ⊢
  simp only at hrest
  split at hrest
  · rename_i hempty
    cases hrest
    exact .inl ⟨rfl, isEmpty_iff.1 hempty, rfl⟩
  · rename_i hne
    right
    obtain ⟨ex₁,w₂,h₂,hrest⟩ := run_bind_ok.1 hrest
    obtain ⟨ex',hex,hstrategy⟩ := h.run_effectiveExecutor mode ex
    rw [hex] at h₂
    cases h₂
    obtain ⟨entry,w₃,h₃,hrest⟩ := run_bind_ok.1 hrest
    have hpaths := nodup_map_of_subperm hfs h.nodup_paths
    have hkeys := (confined_merge mode).returns _ _ _ h₃
    obtain ⟨file,rfl,hmerge⟩ := run_merge_ok mode h.reliable
      (fun f hf => h.holds.live f (hfs.subset hf)) hpaths h₃
    obtain ⟨u,w₄,h₄,hdone⟩ := run_bind_ok.1 hrest
    cases hdone
    rw [hstrategy] at hmerge
    exact ⟨fs, entry, file, u, hfs, rfl, by simpa using hne, rfl, hmerge, hkeys, h₄⟩

theorem TableOf.compactionRun (h : TableOf site w m views c)
    (hfresh : FreshSnapshot site w.objects m snapshotId) {ex : CompactionExecutor}
    (hnew : NewData site w.objects (outputPath outputPrefix ts)) {result : Option DataFileEntry}
    (hrun : (compactionRun site fmt mode selection.pick ex outputPrefix ts snapshotId nowMs).run w =
      (.ok result, w')) : (result = none ∧ selection.pick (c.files.map (·.entry)) = [] ∧ w' = w) ∨
    ∃ fs entry file m' v, List.Subperm fs c.files ∧
      fs.map (·.entry) = selection.pick (c.files.map (·.entry)) ∧ fs ≠ [] ∧ result = some entry ∧
      MergeOf fs (outputPath outputPrefix ts) (takenRowId mode ex.strategy fs) entry file ∧
      CommitOf site m (replaceSnapshot snapshotId m.currentSnapshotId
        ((c.replaced fs ⟨entry, file, ∅⟩).map (·.entry))) nowMs m' ∧
      TableOf site w' m' (views ++ [v]) (c.compacted site m fs ⟨entry, file, ∅⟩) := by
  rcases h.compactionRun_cases hrun with hnone | ⟨fs,entry,file,u,hfs,hentries,hne,hresult,
    hmerge,-,hcommit⟩
  · exact .inl hnone
  · obtain ⟨m',v,hm',htable⟩ := h.commitCompaction hfresh hnew hfs hmerge.entryPath
      hmerge.deletionVector hcommit
    exact .inr ⟨fs,entry,file,m',v,hfs,hentries,hne,hresult,hmerge,hm',htable⟩

theorem objects_deleteOldFiles {entries : List DataFileEntry}
    (hk : k ∉ entries.map fun e => site.locate e.path) (w : Store) :
    ((deleteOldFiles site entries).run w).2.objects k = w.objects k := by
  induction entries generalizing w with
  | nil => rfl
  | cons e rest ih =>
    rw [map_cons,mem_cons,not_or] at hk
    simp only [AiLake.deleteOldFiles,run_bind,run_delete]
    rw [ih hk.2]
    split
    · rfl
    · rw [World.remove_objects,Function.update_of_ne hk.1]
      rfl

theorem TableOf.objects_commitCompaction (h : TableOf site w m views c)
    (hfresh : FreshSnapshot site w.objects m snapshotId) {path : String}
    (hnew : NewData site w.objects path) {u : Unit}
    (hrun : (AiLake.commitCompaction site (fs.map (·.entry)) entry snapshotId nowMs).run
      (w.write (site.locate path) (.dataFile file)) = (.ok u, w')) {o : Object}
    (ho : w.objects k = some o) (hc : o.isContent)
    (hk : k ∉ fs.map fun f => site.locate f.entry.path) : w'.objects k = some o := by
  have hw := h.writeData hnew (.dataFile file)
  have hfresh' := hfresh.update (fun p _ => hnew.data p) (some (.dataFile file))
  obtain ⟨files,w₁,h₁,hrest⟩ := run_bind_ok.1 hrun
  rw [hw.run_buildReplaceFileList ⟨entry,file,∅⟩] at h₁
  cases h₁
  obtain ⟨parent,w₂,h₂,hrest⟩ := run_bind_ok.1 hrest
  rw [hw.run_currentSnapshotOrNone] at h₂
  cases h₂
  obtain ⟨id,w₃,h₃,hold⟩ := run_bind_ok.1 hrest
  have hk' : k ∉ (fs.map (·.entry)).map fun e => site.locate e.path := by simpa using hk
  have hdel := objects_deleteOldFiles hk' w₃
  rw [hold] at hdel
  have hkept : KeepsContent w.objects (w.write (site.locate path) (.dataFile file)).objects :=
    keepsContent_update (by simp [hnew.absent])
  rw [hdel]
  exact hw.keepsContent_commit h₃ hfresh' k o (hkept k o ho hc) hc

theorem run_deleteOldFiles (entries : List DataFileEntry) (w : Store) :
    ∃ w', (deleteOldFiles site entries).run w = (.ok (), w') := by
  induction entries generalizing w with
  | nil => exact ⟨w,rfl⟩
  | cons e rest ih =>
    simp only [AiLake.deleteOldFiles,run_bind,run_delete]
    exact ih _

theorem TableOf.run_commitCompaction (h : TableOf site w m views c) (merged : LiveFile)
    (snapshotId : SnapshotId) (nowMs : Int) (fs : List LiveFile) :
    (∃ w', (AiLake.commitCompaction site (fs.map (·.entry)) merged.entry snapshotId nowMs).run w =
      (.ok (), w')) ∨
    ∃ e, (AiLake.commitCompaction site (fs.map (·.entry)) merged.entry snapshotId nowMs).run w =
      (.error e, w.setMutex false) := by
  simp only [AiLake.commitCompaction,run_bind,h.run_buildReplaceFileList,
    h.run_currentSnapshotOrNone]
  rcases run_commitSnapshot_reliable h.reliable h.stored (replaceSnapshot snapshotId
    m.currentSnapshotId ((c.replaced fs merged).map (·.entry))) nowMs with
    ⟨-,id,w₁,hok⟩ | ⟨-,e,herr⟩
  · rw [hok]
    exact .inl (run_deleteOldFiles _ w₁)
  · rw [herr]
    exact .inr ⟨e,rfl⟩

/-- A compaction that fails leaves at most the merged file, which is not part of the table. -/
theorem TableOf.objects_compactionRun_error (h : TableOf site w m views c) {ex : CompactionExecutor}
    (hnew : NewData site w.objects (outputPath outputPrefix ts)) {e : AilakeError}
    (hrun : (AiLake.compactionRun site fmt mode selection.pick ex outputPrefix ts
      snapshotId nowMs).run w = (.error e, w'))
    (hk : k ≠ site.locate (outputPath outputPrefix ts)) : w'.objects k = w.objects k := by
  obtain ⟨fs,hfs,hentries⟩ := exists_of_subperm_map (selection.subperm (c.files.map (·.entry)))
  obtain ⟨ex',hex,-⟩ := h.run_effectiveExecutor mode ex
  simp only [AiLake.compactionRun,run_bind,h.run_listFiles,← hentries] at hrun
  split at hrun
  · cases hrun
  · simp only [run_bind,hex] at hrun
    rcases hm : (mode.merge site fmt ex' (fs.map (·.entry)) (outputPath outputPrefix ts)).run w with
      ⟨e' | entry, w₁⟩ <;> rw [hm] at hrun <;> simp only at hrun
    · have hconfined : (mode.merge site fmt ex' (fs.map (·.entry))
          (outputPath outputPrefix ts)).Confined _ _ := confined_merge mode
      have hsame := hconfined.touches w
      rw [hm] at hsame
      cases hrun
      exact hsame.objects k hk
    · obtain ⟨file,rfl,-⟩ := run_merge_ok mode h.reliable
        (fun f hf => h.holds.live f (hfs.subset hf)) (nodup_map_of_subperm hfs h.nodup_paths) hm
      have hw := h.writeData hnew (.dataFile file)
      rcases hw.run_commitCompaction ⟨entry,file,∅⟩ snapshotId nowMs fs with ⟨w₂,hok⟩ | ⟨e',herr⟩
      · rw [hok] at hrun
        cases hrun
      · rw [herr] at hrun
        cases hrun
        simp [hk]

end Run
end AiLake
