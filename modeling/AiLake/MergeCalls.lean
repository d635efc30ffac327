import AiLake.MergedRows
import AiLake.WriterSpec
import AiLake.TableHistory

/-! The calls that merge (`compact`, `compact_incremental`, the flush of a mem table): when they
succeed, and whether the rows then stand under their names. -/
namespace AiLake

open StoreProgram List Prog

variable {site : Site} {fmt : FileFormat} {m : IcebergMetadata} {views : List View} {c : Content}
  {w w' : Store}


def LiveFile.source (f : LiveFile) : MergeSource := f.read.source

/-- One vector for each row; a file that keeps no raw vectors has none at all. -/
def LiveFile.HasVectors (f : LiveFile) : Prop :=
  f.file.vectors.length = f.file.batch.numRows ∨ f.file.vectors = []

/-- A batch that was buffered with its vectors. -/
structure Insert where
  batch : RecordBatch
  embeddings : List (List F32)

def Insert.source (b : Insert) : MergeSource := ⟨b.batch.schema, b.batch.rows, b.embeddings⟩

def bufferOf (inserted : List Insert) : MemTable :=
  inserted.foldl (fun mt b => mt.insert b.batch b.embeddings) .empty

inductive MergeCall where
  | compact (ex : CompactionExecutor) (files : List LiveFile) (path : String)
  | compactIncremental (ex : CompactionExecutor) (files : List LiveFile) (path : String)
  | flush (policy : VectorStoragePolicy) (inserted : List Insert) (session : String)
      (snapshotId : SnapshotId) (nowMs : Int)

def flushWriter (policy : VectorStoragePolicy) (session : String) : TableWriter :=
  ⟨policy, none, session, none⟩

namespace MergeCall

def program (site : Site) (fmt : FileFormat) : MergeCall → Program Unit
  | .compact ex files path => do
    let _ ← ex.compact site fmt (files.map (·.entry)) path
    pure ()
  | .compactIncremental ex files path => do
    let _ ← ex.compactIncremental site fmt (files.map (·.entry)) path
    pure ()
  | .flush policy inserted session snapshotId nowMs => do
    let _ ← (bufferOf inserted).flush site fmt policy session snapshotId nowMs
    pure ()

def policy : MergeCall → VectorStoragePolicy
  | .compact ex _ _ | .compactIncremental ex _ _ => ex.policy
  | .flush policy _ _ _ _ => policy

def path : MergeCall → String
  | .compact _ _ path | .compactIncremental _ _ path => path
  | .flush policy _ session _ _ => (flushWriter policy session).partPath 0

def sources : MergeCall → List MergeSource
  | .compact _ files _ | .compactIncremental _ files _ => files.map (·.source)
  | .flush _ inserted _ _ _ => inserted.map (·.source)

/-- The order in which they are joined: the dominant file goes first when its graph is reused. -/
def order : MergeCall → List MergeSource
  | .compact _ files _ => files.map (·.source)
  | .compactIncremental ex files _ =>
    (if reusesGraph ex.strategy files then dominantFirst files else files).map (·.source)
  | .flush _ inserted _ _ _ => inserted.map (·.source)

def columns (call : MergeCall) : List Field := (call.order.head?.map (·.schema)).getD []

/-- The files are there, each once, the merged one's name is new; a buffered batch has a vector for
each row and the flush a new snapshot id. -/
def Ready (site : Site) (w : Store) (m : IcebergMetadata) : MergeCall → Prop
  | .compact _ files path | .compactIncremental _ files path =>
    (∀ f ∈ files, f.Stored site w.objects ∧ f.HasVectors) ∧ (files.map (·.entry.path)).Nodup ∧
      NewData site w.objects path
  | .flush policy inserted session snapshotId _ =>
    (∀ b ∈ inserted, b.embeddings.length = b.batch.numRows) ∧
      FreshSnapshot site w.objects m snapshotId ∧
      NewData site w.objects ((flushWriter policy session).partPath 0)

/-- The sources that go through: they can be read, Arrow joins them, no file lacks its vectors. A
reused graph has a node for each row; a flush has vectors of the table's dimension and gets the
lock. -/
def Accepted (site : Site) (w : Store) (call : MergeCall) : Prop :=
  (∀ s ∈ call.order, s.JoinsUnder call.columns) ∧
  (∀ s ∈ call.order, s.vectors.length = s.rows.length) ∧
  match call with
  | .compact _ files _ => ¬Unreadable files
  | .compactIncremental ex files _ => ¬Unreadable files ∧ (reusesGraph ex.strategy files = true →
      ∀ dom ∈ (dominantFirst files).head?,
        CompactionExecutor.reusableGraph dom.file = some dom.source.rows.length)
  | .flush policy inserted _ _ _ => inserted.flatMap (·.embeddings) ≠ [] ∧
      validateEmbeddingDim policy (inserted.flatMap (·.embeddings)) = .ok () ∧
      w.locked (site.key .commitLock) = false

end MergeCall

/-- A merge that succeeds stores the rows of its sources, unless there are none; one that fails leaves
the table. -/
def Outcome (site : Site) (m : IcebergMetadata) (views : List View) (c : Content) (path : String)
    (policy : VectorStoragePolicy) (sources : List MergeSource) {α : Type} :
    Except AilakeError α × Store → Prop
  | (.ok _, w') => sources.flatMap (·.live) = [] ∨ ∃ file data,
      w'.objects (site.locate path) = some (.dataFile file) ∧ WritesData policy data file ∧
        KeepsRows sources data
  | (.error _, w') => TableOf site w' m views c

def MergeKeeps (site : Site) (fmt : FileFormat) (w : Store) (m : IcebergMetadata)
    (views : List View) (c : Content) (call : MergeCall) : Prop :=
  Outcome site m views c call.path call.policy call.sources ((call.program site fmt).run w)

theorem filterMap_zip_range {α : Type} (keep : Nat → Bool) (l : List α) (n : Nat) :
    ((l.zip ((List.range' n l.length).map keep)).filterMap
      fun p => if p.2 then some p.1 else none).length =
      ((l.zipIdx n).filter fun p => keep p.2).length := by
  induction l generalizing n with
  | nil => rfl
  | cons a rest ih =>
    rw [length_cons,List.range'_succ,map_cons,zip_cons_cons,filterMap_cons,
      zipIdx_cons,filter_cons]
    cases keep n <;> simp [ih]

theorem length_filter_zipIdx {α β : Type} (keep : Nat → Bool) {l : List α} {l' : List β} {n : Nat}
    (h : l.length = l'.length) : ((l.zipIdx n).filter fun p => keep p.2).length =
      ((l'.zipIdx n).filter fun p => keep p.2).length := by
  induction l generalizing l' n with
  | nil =>
    cases l' with
    | nil => rfl
    | cons b rest => cases h
  | cons a rest ih =>
    cases l' with
    | nil => cases h
    | cons b rest' =>
      rw [zipIdx_cons,zipIdx_cons,filter_cons,filter_cons]
      have hrest := @ih rest' (n + 1) (by simpa using h)
      cases keep n <;> simp [hrest]

theorem LiveFile.HasVectors.source {f : LiveFile} (h : f.HasVectors) :
    f.source.vectors.length = f.source.rows.length ∨ f.source.vectors = [] := by
  unfold LiveFile.source LiveFile.read SourceRead.source filterDeletedRows
  split
  · exact h
  · rcases h with h | h
    · left
      simp only [RecordBatch.rows_filterRows,length_map]
      have hrange := filterMap_zip_range (fun i => !f.bitmap.hides i) f.file.vectors 0
      rw [h,← range_eq_range'] at hrange
      rw [hrange]
      exact length_filter_zipIdx (fun i => !f.bitmap.hides i) h
    · right
      simp [h]

theorem LiveFile.HasVectors.le {f : LiveFile} (h : f.HasVectors) :
    f.source.vectors.length ≤ f.source.rows.length := by
  rcases h.source with heq | hnil
  · exact heq.le
  · rw [hnil]
    exact Nat.zero_le _

variable (m views c) in
theorem outcome_ok_iff {α : Type} (a : α) {path : String} {policy : VectorStoragePolicy}
    {columns : List Field} {sources order : List MergeSource} {file : DataFile}
    (hperm : order.Perm sources) (hids : ((sources.flatMap (·.rows)).map (·.id)).Nodup)
    (hvectors : ∀ s ∈ order, s.vectors.length = s.rows.length)
    (hobject : w'.objects (site.locate path) = some (.dataFile file))
    (hfile : WritesData policy (joinRows columns order) file) :
    Outcome site m views c path policy sources (.ok a, w') ↔ Aligned columns order := by
  constructor
  · rintro (hnone | ⟨file',data,hobject',hdata,hkeeps⟩)
    · intro s hs r hr
      obtain ⟨a,ha,-⟩ := exists_live hr
      have hmem : a ∈ sources.flatMap (·.live) :=
        mem_flatMap.2 ⟨s, hperm.subset hs, ha⟩
      rw [hnone] at hmem
      cases hmem
    · cases hobject.symm.trans hobject'
      obtain ⟨hschema,hrows⟩ := hfile.batch_eq
      obtain ⟨hschema',hrows'⟩ := hdata.batch_eq
      exact aligned_of_keepsRows hperm hids (hschema'.symm.trans hschema) (hrows'.symm.trans hrows)
        hkeeps
  · intro haligned
    exact .inr ⟨file, _, hobject, hfile, keepsRows_joinRows hperm hvectors haligned⟩

variable (fmt) in
theorem outcome_mergeAndWrite_iff (ex : CompactionExecutor) (entries : List DataFileEntry)
    (index : List (List F32) → VectorIndex) (firstRowId : Option Int)
    (h : TableOf site w m views c) {path : String} {files rest : List LiveFile} {first : LiveFile}
    (hnew : NewData site w.objects path) (hperm : (first :: rest).Perm files)
    (hids : (((files.map (·.source)).flatMap (·.rows)).map (·.id)).Nodup)
    (hfiles : ∀ f ∈ files, f.HasVectors) :
    Outcome site m views c path ex.policy (files.map (·.source))
        ((mergeAndWrite site fmt ex entries path ((first :: rest).map (·.read)) index
          firstRowId).run w) ↔
      ((∀ s ∈ (first :: rest).map (·.source), s.JoinsUnder first.source.schema) ∧
        (∀ s ∈ (first :: rest).map (·.source), s.vectors.length = s.rows.length) ∧
        (index ((first :: rest).flatMap (·.source.vectors))).nodeCount =
          ((first :: rest).flatMap (·.source.rows)).length →
        Aligned first.source.schema ((first :: rest).map (·.source))) := by
  obtain ⟨data,hdata⟩ : ∃ data, data = joinRows first.source.schema
    ((first :: rest).map (·.source)) := ⟨_,rfl⟩
  have hreads : (((first :: rest).map (·.read)).map (·.source)) =
      (first :: rest).map (·.source) := by
    rw [map_map]
    rfl
  have hvectors : data.vectors = (first :: rest).flatMap (·.source.vectors) := by
    rw [hdata]
    exact flatMap_map ..
  have hrows : data.rows.length = ((first :: rest).flatMap (·.source.rows)).length := by
    simp only [hdata,joinRows,flatMap_map,length_flatMap,length_map]
  have hcounts : data.vectors.length = data.rows.length ↔
      ∀ s ∈ (first :: rest).map (·.source), s.vectors.length = s.rows.length := by
    rw [hdata]
    refine length_vectors_joinRows_iff fun s hs => ?_
    obtain ⟨f,hf,rfl⟩ := mem_map.1 hs
    exact (hfiles f (hperm.subset hf)).le
  have hjoins : Joins first.read.batch.schema (((first :: rest).map (·.read)).map (·.batch)) ↔
      ∀ s ∈ (first :: rest).map (·.source), s.JoinsUnder first.source.schema := by
    simp only [Joins,forall_mem_map]
    exact Iff.rfl
  rw [← hvectors,← hrows,← hcounts,← hjoins]
  rw [← hreads] at hdata
  rcases run_mergeAndWrite site fmt ex path entries index firstRowId h.reliable hdata with
    ⟨haccepted,entry,file,hrun,hfile⟩ | ⟨hrefused,e,w',hrun,hw'⟩
  · have hobject : (w.write (site.locate path) (.dataFile file)).objects (site.locate path) =
      some (.dataFile file) := by simp
    have hiff := outcome_ok_iff m views c entry (hperm.map LiveFile.source) hids
      (hcounts.1 haccepted.2.1) hobject (hreads ▸ hdata ▸ hfile)
    rw [map_cons,hrun,hiff]
    exact ⟨fun haligned _ => haligned, fun haligned => haligned haccepted⟩
  · rw [map_cons,hrun]
    refine iff_of_true ?_ fun haccepted => absurd haccepted hrefused
    rcases hw' with rfl | ⟨o,rfl⟩
    · exact h
    · exact h.writeData hnew o

theorem outcome_discard_iff {α : Type} {path : String} {policy : VectorStoragePolicy}
    {sources : List MergeSource} (p : Program α) :
    Outcome site m views c path policy sources
        ((do let _ ← p; pure () : Program Unit).run w) ↔
      Outcome site m views c path policy sources (p.run w) := by
  rw [run_bind]
  rcases p.run w with ⟨e | a, w'⟩ <;> exact Iff.rfl

theorem length_flatMap_vectors {files : List LiveFile}
    (h : ∀ s ∈ files.map (·.source), s.vectors.length = s.rows.length) :
    (files.flatMap (·.source.vectors)).length = (files.flatMap (·.source.rows)).length := by
  rw [length_flatMap,length_flatMap]
  exact congrArg List.sum (map_congr_left fun f hf => h _ (mem_map_of_mem hf))

theorem outcome_compact_iff (h : TableOf site w m views c) {ex : CompactionExecutor}
    {files : List LiveFile} {path : String}
    (hfiles : ∀ f ∈ files, f.Stored site w.objects ∧ f.HasVectors)
    (hnew : NewData site w.objects path)
    (hids : (((files.map (·.source)).flatMap (·.rows)).map (·.id)).Nodup) :
    Outcome site m views c path ex.policy (files.map (·.source))
        ((ex.compact site fmt (files.map (·.entry)) path).run w) ↔
      ((MergeCall.compact ex files path).Accepted site w →
        Aligned (MergeCall.compact ex files path).columns (files.map (·.source))) := by
  rcases run_compact h.reliable fun f hf => (hfiles f hf).1 with ⟨hunread,e,hrun⟩ | ⟨hread,hrun⟩
  · rw [hrun]
    exact iff_of_true h fun haccepted => absurd hunread haccepted.2.2
  · rw [hrun]
    cases files with
    | nil => exact absurd (.inl rfl) hread
    | cons first rest =>
      refine (outcome_mergeAndWrite_iff fmt ex _ _ _ h hnew (.refl _) hids
        fun f hf => (hfiles f hf).2).trans (imp_congr_left ?_)
      constructor
      · exact fun haccepted => ⟨haccepted.1,haccepted.2.1,hread⟩
      · exact fun haccepted => ⟨haccepted.1, haccepted.2.1, length_flatMap_vectors haccepted.2.1⟩

theorem nodes_eq_iff {dom : LiveFile} {others : List LiveFile} {nodes : Nat}
    (h : ∀ s ∈ (dom :: others).map (·.source), s.vectors.length = s.rows.length) :
    nodes + (others.flatMap (·.read.vectors)).length =
        ((dom :: others).flatMap (·.source.rows)).length ↔ nodes = dom.source.rows.length := by
  have hothers : (others.flatMap (·.read.vectors)).length =
      (others.flatMap (·.source.rows)).length :=
    length_flatMap_vectors fun s hs => h s (mem_cons_of_mem _ hs)
  rw [hothers,flatMap_cons,length_append]
  omega

theorem outcome_compactIncremental_iff (h : TableOf site w m views c) {ex : CompactionExecutor}
    {files : List LiveFile} {path : String}
    (hready : (MergeCall.compactIncremental ex files path).Ready site w m)
    (hids : (((files.map (·.source)).flatMap (·.rows)).map (·.id)).Nodup) :
    Outcome site m views c path ex.policy (files.map (·.source))
        ((ex.compactIncremental site fmt (files.map (·.entry)) path).run w) ↔
      ((MergeCall.compactIncremental ex files path).Accepted site w →
        Aligned (MergeCall.compactIncremental ex files path).columns
          (MergeCall.compactIncremental ex files path).order) := by
  obtain ⟨hfiles,hpaths,hnew⟩ := hready
  rcases run_compactIncremental h.reliable fun f hf => (hfiles f hf).1 with
    ⟨hunread,e,hrun⟩ | ⟨hgraph,hrun⟩ | ⟨hread,hgraph,dom,others,nodes,horder,hnodes,hrun⟩
  · rw [hrun]
    exact iff_of_true h fun haccepted => absurd hunread haccepted.2.2.1
  · have hsame : (MergeCall.compactIncremental ex files path).order =
        (MergeCall.compact ex files path).order := by
      simp [MergeCall.order,hgraph]
    rw [hrun,outcome_compact_iff h hfiles hnew hids,MergeCall.columns,MergeCall.columns,hsame]
    refine imp_congr_left ?_
    simp only [MergeCall.Accepted,MergeCall.columns,hsame,hgraph,Bool.false_eq_true,
      false_implies,and_true]
  · have hfirst : (MergeCall.compactIncremental ex files path).order =
        (dom :: others).map (·.source) := by
      simp [MergeCall.order,hgraph,horder]
    have hcolumns : (MergeCall.compactIncremental ex files path).columns = dom.source.schema := by
      rw [MergeCall.columns,hfirst]
      rfl
    have hperm : (dom :: others).Perm files := horder ▸ perm_dominantFirst hpaths
    rw [hrun,hcolumns,hfirst]
    refine (outcome_mergeAndWrite_iff fmt ex _ _ _ h hnew hperm hids
      fun f hf => (hfiles f hf).2).trans (imp_congr_left ?_)
    rw [MergeCall.Accepted,hcolumns,hfirst]
    refine and_congr_right fun _ => and_congr_right fun hvectors => ?_
    simp only [nodes_eq_iff hvectors,hgraph,horder,head?_cons,Option.mem_some_iff,
      forall_eq',hnodes,Option.some.injEq]
    exact ⟨fun hcount => ⟨hread, fun _ => hcount⟩, fun haccepted => haccepted.2 trivial⟩

/-! The flush. -/

theorem bufferOf_eq (inserted : List Insert) :
    bufferOf inserted = ⟨inserted.map (·.batch), inserted.flatMap (·.embeddings)⟩ := by
  have hfold (l : List Insert) (mt : MemTable) :
      l.foldl (fun mt b => mt.insert b.batch b.embeddings) mt =
        ⟨mt.pendingBatches ++ l.map (·.batch), mt.pendingEmbeddings ++ l.flatMap (·.embeddings)⟩ := by
    induction l generalizing mt with
    | nil => simp
    | cons b rest ih =>
      rw [foldl_cons,ih]
      simp [MemTable.insert]
  rw [bufferOf,hfold]
  rfl

theorem sameTypes_self (schema : List Field) : sameTypes schema schema = true := by
  induction schema with
  | nil => rfl
  | cons f fs ih => simp [sameTypes,ih]

theorem RecordBatch.take_cells (b : RecordBatch) {r : Row} (h : r ∈ b.rows) :
    r.cells.take b.schema.length = r.cells :=
  take_of_length_le (length_of_fits (all_eq_true.1 b.valid r h)).le

theorem Insert.source_joins (b : Insert) : b.source.JoinsUnder b.batch.schema ∧
    (joinRows b.batch.schema [b.source]).rows = b.batch.rows := by
  refine ⟨⟨sameTypes_self _, fun r hr => ?_⟩, ?_⟩
  · have hself := b.batch.take_cells hr
    rw [hself]
    exact all_eq_true.1 b.batch.valid r hr
  · simp only [joinRows,flatMap_cons,flatMap_nil,append_nil]
    refine (map_congr_left fun r hr => ?_).trans (map_id _)
    have hself := b.batch.take_cells (r := r) hr
    simp [hself]

theorem merged_bufferOf (b : Insert) (rest : List Insert) :
    ((∀ s ∈ (b :: rest).map (·.source), s.JoinsUnder b.batch.schema) ∧ ∃ batch,
      (bufferOf (b :: rest)).merged = .ok batch ∧ batch.schema = b.batch.schema ∧
        batch.rows = (joinRows b.batch.schema ((b :: rest).map (·.source))).rows) ∨
    (¬(∀ s ∈ (b :: rest).map (·.source), s.JoinsUnder b.batch.schema) ∧
      ∃ e, (bufferOf (b :: rest)).merged = .error e) := by
  rw [bufferOf_eq]
  cases rest with
  | nil =>
    obtain ⟨hjoins,hrows⟩ := b.source_joins
    exact .inl ⟨by simpa using hjoins, b.batch, rfl, rfl, hrows.symm⟩
  | cons b' rest =>
    have hjoins : (∀ s ∈ (b :: b' :: rest).map (·.source), s.JoinsUnder b.batch.schema) ↔
        Joins b.batch.schema ((b :: b' :: rest).map (·.batch)) := by
      simp only [Joins,forall_mem_map]
      exact Iff.rfl
    have hrows : (joinRows b.batch.schema ((b :: b' :: rest).map (·.source))).rows =
        ((b :: b' :: rest).map (·.batch)).flatMap fun batch =>
          batch.rows.map fun r => { r with cells := r.cells.take b.batch.schema.length } := by
      simp only [joinRows,flatMap_map]
      rfl
    rw [hjoins,hrows]
    simp only [MemTable.merged,map_cons]
    cases hconcat : concatBatches b.batch.schema
        (b.batch :: b'.batch :: rest.map (·.batch)) with
    | none =>
      right
      refine ⟨fun h => ?_, _, rfl⟩
      obtain ⟨batch,hbatch⟩ := exists_concatBatches h
      cases hconcat.symm.trans hbatch
    | some batch =>
      left
      obtain ⟨h,hschema,hbatch⟩ := concatBatches_eq_some.1 hconcat
      exact ⟨h,batch,rfl,hschema,hbatch⟩

theorem run_appendBatches_single (hr : w.Reliable) {writer : TableWriter} {batch : RecordBatch}
    {embeddings : List (List F32)} {snapshotId : SnapshotId} {nowMs : Int}
    (hlength : embeddings.length = batch.numRows) :
    (∃ e, validateEmbeddingDim writer.policy embeddings = .error e ∧
      (appendBatches site fmt writer [⟨batch, embeddings, none, true⟩] snapshotId nowMs).run w =
        (.error e, w)) ∨
    (validateEmbeddingDim writer.policy embeddings = .ok () ∧ ∃ file files,
      writeDataFile writer.policy batch embeddings none false = .ok file ∧
      (appendBatches site fmt writer [⟨batch, embeddings, none, true⟩] snapshotId nowMs).run w =
        (commitSnapshot site (appendSnapshot writer [⟨batch, embeddings, none, true⟩] files snapshotId)
          nowMs).run (w.write (site.locate (writer.partPath 0)) (.dataFile file))) := by
  have hwrite : writeDataFile writer.policy batch embeddings none false =
      .ok ⟨batch, if writer.policy.keepRaw then embeddings else [], none, false⟩ := by
    simp [writeDataFile,hlength]
  cases hdim : validateEmbeddingDim writer.policy embeddings with
  | error e =>
    left
    refine ⟨e,rfl,?_⟩
    simp only [appendBatches,writeBatches,writeBatch,run_bind,run_ofExcept,hdim]
  | ok u =>
    right
    refine ⟨rfl, _, [writer.entry fmt ⟨batch,embeddings,none,true⟩ (writer.partPath 0)
      ⟨batch, if writer.policy.keepRaw then embeddings else [], none, false⟩], hwrite, ?_⟩
    simp only [appendBatches,writeBatches,writeBatch,TableWriter.dataFile,run_bind,
      run_ofExcept,hdim,hwrite,if_true,run_putObject_reliable hr,run_pure,
      isEmpty_cons,Bool.false_eq_true,if_false]

theorem outcome_appendBatches_iff (h : TableOf site w m views c) {policy : VectorStoragePolicy}
    {b : Insert} {rest : List Insert} {session : String} {snapshotId : SnapshotId} {nowMs : Int}
    {batch : RecordBatch} (hfresh : FreshSnapshot site w.objects m snapshotId)
    (hnew : NewData site w.objects ((flushWriter policy session).partPath 0))
    (hids : ((((b :: rest).map (·.source)).flatMap (·.rows)).map (·.id)).Nodup)
    (hvectors : ∀ s ∈ (b :: rest).map (·.source), s.vectors.length = s.rows.length)
    (hjoins : ∀ s ∈ (b :: rest).map (·.source), s.JoinsUnder b.batch.schema)
    (hnonempty : (b :: rest).flatMap (·.embeddings) ≠ [])
    (hschema : batch.schema = b.batch.schema)
    (hrows : batch.rows = (joinRows b.batch.schema ((b :: rest).map (·.source))).rows) :
    Outcome site m views c ((flushWriter policy session).partPath 0) policy
        ((b :: rest).map (·.source))
        ((appendBatches site fmt (flushWriter policy session)
          [⟨batch, (b :: rest).flatMap (·.embeddings), none, true⟩] snapshotId nowMs).run w) ↔
      ((MergeCall.flush policy (b :: rest) session snapshotId nowMs).Accepted site w →
        Aligned b.batch.schema ((b :: rest).map (·.source))) := by
  have hembeddings : (b :: rest).flatMap (·.embeddings) =
      (joinRows b.batch.schema ((b :: rest).map (·.source))).vectors := by
    simp only [joinRows,flatMap_map]
    rfl
  have hlength : ((b :: rest).flatMap (·.embeddings)).length = batch.numRows := by
    rw [hembeddings,RecordBatch.numRows,hrows]
    exact (length_vectors_joinRows_iff fun s hs => (hvectors s hs).le).2 hvectors
  rcases run_appendBatches_single h.reliable hlength with
    ⟨e,hdim,hrun⟩ | ⟨hdim,file,files,hfile,hrun⟩
  · rw [hrun]
    refine iff_of_true h fun haccepted => ?_
    cases hdim.symm.trans haccepted.2.2.2.1
  · have hwritten := h.writeData hnew (.dataFile file)
    have hstored : WritesData policy (joinRows b.batch.schema ((b :: rest).map (·.source))) file :=
      ⟨batch, none, false, ⟨hschema,hrows,rfl⟩, hembeddings ▸ hfile⟩
    rw [hrun]
    rcases run_commitSnapshot_reliable hwritten.reliable hwritten.stored
      (appendSnapshot (flushWriter policy session) [⟨batch,_,none,true⟩] files snapshotId) nowMs with
      ⟨hlock,id,w',hcommit⟩ | ⟨hlock,e,hcommit⟩
    · have hfresh' : FreshSnapshot site (w.write (site.locate
          ((flushWriter policy session).partPath 0)) (.dataFile file)).objects m snapshotId :=
        hfresh.update (fun p _ => hnew.data p) (some (.dataFile file))
      have hobject := hwritten.keepsContent_commit hcommit hfresh'
        (site.locate ((flushWriter policy session).partPath 0)) (.dataFile file) (by simp) rfl
      rw [hcommit,outcome_ok_iff m views c id (.refl _) hids hvectors hobject hstored]
      exact ⟨fun haligned _ => haligned,
        fun haligned => haligned ⟨hjoins,hvectors,hnonempty,hdim,hlock⟩⟩
    · rw [hcommit]
      refine iff_of_true (hwritten.setMutex false) fun haccepted => ?_
      cases hlock.symm.trans haccepted.2.2.2.2

theorem outcome_flush_iff (h : TableOf site w m views c) {policy : VectorStoragePolicy}
    {inserted : List Insert} {session : String} {snapshotId : SnapshotId} {nowMs : Int}
    (hready : (MergeCall.flush policy inserted session snapshotId nowMs).Ready site w m)
    (hids : (((inserted.map (·.source)).flatMap (·.rows)).map (·.id)).Nodup) :
    Outcome site m views c ((flushWriter policy session).partPath 0) policy
        (inserted.map (·.source))
        (((bufferOf inserted).flush site fmt policy session snapshotId nowMs).run w) ↔
      ((MergeCall.flush policy inserted session snapshotId nowMs).Accepted site w →
        Aligned (MergeCall.flush policy inserted session snapshotId nowMs).columns
          (inserted.map (·.source))) := by
  obtain ⟨hlengths,hfresh,hnew⟩ := hready
  have hvectors : ∀ s ∈ inserted.map (·.source), s.vectors.length = s.rows.length := by
    rw [forall_mem_map]
    exact hlengths
  by_cases hempty : inserted.flatMap (·.embeddings) = []
  · have hrun : ((bufferOf inserted).flush site fmt policy session snapshotId nowMs).run w =
        (.ok 0, w) := by
      simp [bufferOf_eq,MemTable.flush,hempty]
    rw [hrun]
    refine iff_of_true (.inl ?_) fun haccepted => absurd hempty haccepted.2.2.1
    rw [flatMap_eq_nil_iff] at hempty ⊢
    intro s hs
    obtain ⟨b,hb,rfl⟩ := mem_map.1 hs
    have hrows : b.batch.rows.length = 0 := (hlengths b hb).symm.trans (congrArg List.length (hempty b hb))
    simp [MergeSource.live,Insert.source,eq_nil_of_length_eq_zero hrows]
  · cases inserted with
    | nil => exact absurd rfl hempty
    | cons b rest =>
      have hflush : (bufferOf (b :: rest)).flush site fmt policy session snapshotId nowMs = (do
          let batch ← Prog.ofExcept (bufferOf (b :: rest)).merged
          appendBatches site fmt (flushWriter policy session)
            [⟨batch, (b :: rest).flatMap (·.embeddings), none, true⟩] snapshotId nowMs) := by
        unfold MemTable.flush
        rw [bufferOf_eq,if_neg (by simpa using hempty)]
        rfl
      rw [hflush,run_bind,run_ofExcept]
      rcases merged_bufferOf b rest with ⟨hjoins,batch,hmerged,hschema,hrows⟩ | ⟨hjoins,e,hmerged⟩
      · rw [hmerged]
        exact outcome_appendBatches_iff h hfresh hnew hids hvectors hjoins hempty hschema hrows
      · rw [hmerged]
        exact iff_of_true h fun haccepted => absurd haccepted.1 hjoins

/-- A merge keeps the rows of its sources, or fails and leaves the table, exactly when the columns
of all sources that go through stand as those of the first one. -/
theorem mergeKeeps_iff (h : TableOf site w m views c) {call : MergeCall}
    (hready : call.Ready site w m) (hids : ((call.sources.flatMap (·.rows)).map (·.id)).Nodup) :
    MergeKeeps site fmt w m views c call ↔
      (call.Accepted site w → Aligned call.columns call.order) := by
  cases call with
  | compact ex files path =>
    exact (outcome_discard_iff _).trans (outcome_compact_iff h hready.1 hready.2.2 hids)
  | compactIncremental ex files path =>
    exact (outcome_discard_iff _).trans (outcome_compactIncremental_iff h hready hids)
  | flush policy inserted session snapshotId nowMs =>
    exact (outcome_discard_iff _).trans (outcome_flush_iff h hready hids)

/-! Two files with one row each, whose two columns have the same type. -/

def pairBatch (first second : String) (id : Nat) : RecordBatch :=
  ⟨[⟨first, .int64, false⟩, ⟨second, .int64, false⟩], [⟨id, [some (.int 1), some (.int 2)]⟩],
    by simp [fits, Field.admits, Scalar.hasType]⟩

def pairFile (path first second : String) (id : Nat) : LiveFile :=
  ⟨demoFile path 1, ⟨pairBatch first second id, [[0]], some ⟨.hnsw, 1⟩, false⟩, ∅⟩

def pairStore (files : List LiveFile) : Store :=
  files.foldl (fun w f => w.write (demoSite.locate f.entry.path) (.dataFile f.file)) (demoTable 2)

def storedValues (w : Store) (path name : String) : List (Nat × Option Cell) :=
  match w.objects (demoSite.locate path) with
  | some (.dataFile file) => file.batch.rows.map fun r => (r.id, valueOf file.batch.schema r.cells name)
  | _ => []

theorem mergeKeeps_pair :
    let files := [pairFile "data/x.parquet" "a" "b" 1,pairFile "data/y.parquet" "a" "b" 2]
    let call := MergeCall.compactIncremental demoExecutor files "data/m.parquet"
    ((call.program demoSite demoFormat).run (pairStore files)).1.toBool = true ∧
      MergeKeeps demoSite demoFormat (pairStore files) (demoMetadata 2) [] ⟨[],[]⟩ call := by
  intro files call
  have hx : NewData demoSite (demoTable 2).objects "data/x.parquet" :=
    newData_of_ne (by decide) (by decide)
  have hy : NewData demoSite ((demoTable 2).write (demoSite.locate "data/x.parquet")
      (.dataFile (pairFile "data/x.parquet" "a" "b" 1).file)).objects "data/y.parquet" :=
    newData_of_ne (by decide) (by decide)
  have htable : TableOf demoSite (pairStore files) (demoMetadata 2) [] ⟨[],[]⟩ :=
    ((tableOf_demoTable 2).writeData hx _).writeData hy _
  have hready : call.Ready demoSite (pairStore files) (demoMetadata 2) := by
    refine ⟨?_, by decide, newData_of_ne (by decide) (by decide)⟩
    rw [forall_mem_cons,forall_mem_cons]
    exact ⟨⟨⟨by decide, rfl⟩, .inl rfl⟩, ⟨⟨by decide, rfl⟩, .inl rfl⟩, by simp⟩
  exact ⟨by decide +kernel, (mergeKeeps_iff htable hready (by decide)).2
    fun _ => aligned_of_same_columns (by decide +kernel)⟩

/-- The second file has its columns the other way round: its values change places in a compaction,
an incremental one and a flush. -/
theorem merge_swaps_values :
    let files := [pairFile "data/x.parquet" "a" "b" 1,pairFile "data/y.parquet" "b" "a" 2]
    let w := pairStore files
    let entries := files.map (·.entry)
    let full := (demoExecutor.compact demoSite demoFormat entries "data/m.parquet").run w
    let incremental :=
      (demoExecutor.compactIncremental demoSite demoFormat entries "data/m.parquet").run w
    let flushed := ((bufferOf [⟨pairBatch "a" "b" 1, [[0]]⟩,⟨pairBatch "b" "a" 2, [[0]]⟩]).flush
      demoSite demoFormat demoPolicy "s" 1 0).run (demoTable 2)
    storedValues w "data/y.parquet" "a" = [(2, some (some (.int 2)))] ∧
      full.1.toBool = true ∧ (2, some (some (.int 1))) ∈ storedValues full.2 "data/m.parquet" "a" ∧
      incremental.1.toBool = true ∧
      (1, some (some (.int 2))) ∈ storedValues incremental.2 "data/m.parquet" "a" ∧
      flushed.1 = .ok 1 ∧
      (2, some (some (.int 1))) ∈ storedValues flushed.2 "data/part-s-00000.parquet" "a" := by
  decide +kernel

end AiLake
