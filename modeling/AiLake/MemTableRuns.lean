import AiLake.Writer
import AiLake.StoreProgram.History

/-! The buffer of `mem_table.rs` over sequences of calls whose writes and commits may fail. -/
namespace AiLake.MemTables

open StoreProgram List

structure MemTableConfig where
  flushSizeBytes : Nat
  flushMaxRows : Nat
  flushInterval : Nat
  deriving DecidableEq, Repr

structure MemTableWriter extends MemTable where
  bufferedBytes : Nat
  lastFlush : Nat

/-- What a commit comes to; one that fails may have been published. -/
inductive CommitOutcome where
  | committed (snapshot : SnapshotId)
  | failed (e : AilakeError) (published : Bool)
  deriving DecidableEq, Repr

/-- What a flush meets: the time, an error of the catalog, the store or the index job during the write,
and the commit. -/
structure FlushWeather where
  now : Nat
  writeFault : Option AilakeError
  commit : CommitOutcome
  deriving DecidableEq, Repr

structure ShardFile where
  batch : RecordBatch
  embeddings : List (List F32)

structure FlushOutcome where
  result : Except AilakeError SnapshotId
  writer : MemTableWriter
  files : List ShardFile

/-- `write_batch_deferred`. -/
def writeDeferred (policy : VectorStoragePolicy) (weather : FlushWeather) (batch : RecordBatch)
    (embeddings : List (List F32)) : Except AilakeError Unit := do
  validateEmbeddingDim policy embeddings
  let _ ← writeDataFile policy batch embeddings none false
  match weather.writeFault with
  | some e => .error e
  | none => .ok ()

namespace MemTableWriter

def new (now : Nat) : MemTableWriter := ⟨.empty, 0, now⟩

variable (policy : VectorStoragePolicy) (config : MemTableConfig) (weather : FlushWeather)

/-- The buffer is emptied before the write and the commit. -/
def flush (mt : MemTableWriter) : FlushOutcome :=
  if mt.pendingEmbeddings.isEmpty then ⟨.ok 0, { mt with lastFlush := weather.now }, []⟩
  else
    match mt.toMemTable.merged with
    | .error e => ⟨.error e, mt, []⟩
    | .ok merged =>
      match writeDeferred policy weather merged mt.pendingEmbeddings with
      | .error e => ⟨.error e, new weather.now, []⟩
      | .ok () =>
        match weather.commit with
        | .committed snapshot =>
          ⟨.ok snapshot, new weather.now, [⟨merged, mt.pendingEmbeddings⟩]⟩
        | .failed e published =>
          ⟨.error e, new weather.now, if published then [⟨merged, mt.pendingEmbeddings⟩] else []⟩

/-- The first lines of `insert`. -/
def push (mt : MemTableWriter) (batch : RecordBatch) (embeddings : List (List F32)) :
    MemTableWriter where
  toMemTable := mt.toMemTable.insert batch embeddings
  bufferedBytes := mt.bufferedBytes + embeddings.length * policy.dim * policy.precision.bytesPerElement
  lastFlush := mt.lastFlush

def full (mt : MemTableWriter) : Bool :=
  mt.bufferedBytes ≥ config.flushSizeBytes || mt.pendingEmbeddings.length ≥ config.flushMaxRows

end MemTableWriter

inductive MemTableCall where
  | insert (batch : RecordBatch) (embeddings : List (List F32))
  | flushIfDue
  | flush

/-- The writer, the files that were committed, and the rows that inserts have taken in. -/
structure System where
  writer : MemTableWriter
  files : List ShardFile
  accepted : List ((Nat × List (String × Cell)) × List F32)

def content (schema : List Field) (r : Row) : Nat × List (String × Cell) :=
  (r.id, (schema.map (·.name)).zip r.cells)

def contents (batch : RecordBatch) : List (Nat × List (String × Cell)) :=
  batch.rows.map (content batch.schema)

section Calls

variable (policy : VectorStoragePolicy) (config : MemTableConfig)

def flushed (weather : FlushWeather) (mt : MemTableWriter) : MemTableCall → Option MemTableWriter
  | .insert batch embeddings =>
    if (mt.push policy batch embeddings).full config then some (mt.push policy batch embeddings)
    else none
  | .flushIfDue =>
    if mt.pendingEmbeddings.isEmpty then none
    else if weather.now - mt.lastFlush ≥ config.flushInterval then some mt else none
  | .flush => some mt

def unflushed (weather : FlushWeather) (mt : MemTableWriter) : MemTableCall → MemTableWriter
  | .insert batch embeddings => mt.push policy batch embeddings
  | .flushIfDue =>
    if mt.pendingEmbeddings.isEmpty then { mt with lastFlush := weather.now } else mt
  | .flush => mt

/-- `insert`, `flush_if_due` and `flush`. -/
def call (weather : FlushWeather) (mt : MemTableWriter) (c : MemTableCall) :
    Except AilakeError (Option SnapshotId) × MemTableWriter × List ShardFile :=
  match flushed policy config weather mt c with
  | some start =>
    let outcome := start.flush policy weather
    (outcome.result.map some, outcome.writer, outcome.files)
  | none => (.ok none, unflushed policy weather mt c, [])

/-- The rows of an insert. One whose counts differ has none to take in. -/
def offered : MemTableCall → List ((Nat × List (String × Cell)) × List F32)
  | .insert batch embeddings =>
    if batch.numRows = embeddings.length then (contents batch).zip embeddings else []
  | .flushIfDue | .flush => []

def System.after (s : System) (weather : FlushWeather) (c : MemTableCall) : System where
  writer := (call policy config weather s.writer c).2.1
  files := s.files ++ (call policy config weather s.writer c).2.2
  accepted := s.accepted ++ offered c

def Step (s : System) (label : FlushWeather × MemTableCall) (t : System) : Prop :=
  t = s.after policy config label.1 label.2

end Calls

/-! What the buffer should do. -/

def ShardFile.held (f : ShardFile) : List ((Nat × List (String × Cell)) × List F32) :=
  (contents f.batch).zip f.embeddings

def rowsOf (mt : MemTable) : List (Nat × List (String × Cell)) := mt.pendingBatches.flatMap contents

/-- The accepted rows are those of the files followed by those of the buffer, each with its vector. -/
structure Lossless (s : System) : Prop where
  aligned : (rowsOf s.writer.toMemTable).length = s.writer.pendingEmbeddings.length
  files : ∀ f ∈ s.files, f.batch.numRows = f.embeddings.length
  held : s.files.flatMap ShardFile.held ++
    (rowsOf s.writer.toMemTable).zip s.writer.pendingEmbeddings = s.accepted

structure Lawful (policy : VectorStoragePolicy) (config : MemTableConfig) (s : System)
    (label : FlushWeather × MemTableCall) (t : System) : Prop where
  lossless : Lossless t
  /-- A flush that fails leaves the buffer as it was. -/
  keeps {start : MemTableWriter} (hstart : flushed policy config label.1 s.writer label.2 = some start)
    {e : AilakeError} (herror : (start.flush policy label.1).result = .error e) :
    t.writer.toMemTable = start.toMemTable
  refuses {batch : RecordBatch} {embeddings : List (List F32)}
    (hinsert : label.2 = .insert batch embeddings) (hcounts : batch.numRows ≠ embeddings.length) :
    (∃ e, (call policy config label.1 s.writer label.2).1 = .error e) ∧
      t.writer.toMemTable = s.writer.toMemTable

/-- A flush that does no harm: nothing to flush, batches that do not go together, or the columns of
the first one and neither write nor commit fails. -/
def Harmless (policy : VectorStoragePolicy) (weather : FlushWeather) (mt : MemTableWriter) : Prop :=
  mt.pendingEmbeddings = [] ∨ (∃ e, mt.toMemTable.merged = .error e) ∨
    ((∀ first ∈ mt.pendingBatches.head?, ∀ batch ∈ mt.pendingBatches, batch.rows ≠ [] →
        batch.schema.map (·.name) = first.schema.map (·.name)) ∧
      validateEmbeddingDim policy mt.pendingEmbeddings = .ok () ∧ weather.writeFault = none ∧
      ∃ snapshot, weather.commit = .committed snapshot)

structure Orderly (policy : VectorStoragePolicy) (config : MemTableConfig) (s : System)
    (label : FlushWeather × MemTableCall) : Prop where
  counts {batch : RecordBatch} {embeddings : List (List F32)}
    (hinsert : label.2 = .insert batch embeddings) : batch.numRows = embeddings.length
  flush {start : MemTableWriter}
    (hstart : flushed policy config label.1 s.writer label.2 = some start) :
    Harmless policy label.1 start

/-! The merged batch. -/

theorem length_le_of_sameTypes {fs gs : List Field} (h : sameTypes fs gs) : fs.length ≤ gs.length := by
  induction fs generalizing gs with
  | nil => exact Nat.zero_le _
  | cons f fs ih =>
    cases gs with
    | nil => cases h
    | cons g gs => exact Nat.succ_le_succ (ih (Bool.and_eq_true_iff.1 h).2)

section Merged

variable {schema : List Field} {batch first merged : RecordBatch} {r : Row} {mt : MemTable}

theorem content_take : content schema { r with cells := r.cells.take schema.length } = content schema r := by
  have hzip : (schema.map (·.name)).zip (r.cells.take (schema.map (·.name)).length) =
      (schema.map (·.name)).zip r.cells := zip_take_length _ _
  rw [length_map] at hzip
  simp only [content,hzip]

theorem content_eq_iff (hr : fits batch.schema r.cells) (hle : schema.length ≤ batch.schema.length) :
    content schema r = content batch.schema r ↔
      batch.schema.map (·.name) = schema.map (·.name) := by
  have hlen : r.cells.length = batch.schema.length := length_of_fits hr
  refine ⟨fun h => ?_, fun h => by rw [content,content,h]⟩
  have hzip := congrArg (List.map Prod.fst) (Prod.mk.inj h).2
  rw [map_fst_zip (by simpa using hle.trans hlen.ge),map_fst_zip (by simp [hlen])] at hzip
  exact hzip.symm

theorem contents_merged (h : mt.merged = .ok merged) : ∃ first, mt.pendingBatches.head? = some first ∧
    (∀ batch ∈ mt.pendingBatches, first.schema.length ≤ batch.schema.length) ∧
    contents merged = mt.pendingBatches.flatMap fun batch => batch.rows.map (content first.schema) := by
  unfold MemTable.merged at h
  split at h
  · cases h
  · next batch hone =>
    cases h
    exact ⟨merged, by rw [hone]; rfl, by simp [hone], by simp [hone,contents]⟩
  · next first rest hne hsplit =>
    split at h
    · cases h
    · next batch hconcat =>
      cases h
      refine ⟨first, by rw [hsplit]; rfl, fun b hb => ?_, ?_⟩
      · unfold concatBatches at hconcat
        split at hconcat
        · next hall => exact length_le_of_sameTypes (all_eq_true.1 hall b hb)
        · cases hconcat
      · have hschema : merged.schema = first.schema := by
          unfold concatBatches at hconcat
          split at hconcat
          · exact (RecordBatch.tryNew_eq_some.1 hconcat).1
          · cases hconcat
        rw [contents,hschema,rows_of_concatBatches hconcat,map_flatMap]
        simp only [map_map,Function.comp_def,content_take]

theorem flatMap_congr_iff {α β : Type} {l : List α} {f g : α → List β}
    (hlen : ∀ a ∈ l, (f a).length = (g a).length) :
    l.flatMap f = l.flatMap g ↔ ∀ a ∈ l, f a = g a := by
  induction l with
  | nil => simp
  | cons a l ih =>
    obtain ⟨ha,hl⟩ := forall_mem_cons.1 hlen
    rw [flatMap_cons,flatMap_cons,forall_mem_cons,← ih hl]
    refine ⟨fun h => append_inj h ha, fun h => by rw [h.1,h.2]⟩

theorem contents_merged_eq_iff (h : mt.merged = .ok merged) :
    contents merged = mt.pendingBatches.flatMap contents ↔
      ∀ first ∈ mt.pendingBatches.head?, ∀ batch ∈ mt.pendingBatches, batch.rows ≠ [] →
        batch.schema.map (·.name) = first.schema.map (·.name) := by
  obtain ⟨first,hfirst,hle,hcontents⟩ := contents_merged h
  rw [hcontents,flatMap_congr_iff (fun batch _ => by simp [contents]),hfirst]
  simp only [Option.mem_some_iff,forall_eq']
  refine forall₂_congr fun batch hbatch => ?_
  rw [contents,map_inj_left]
  constructor
  · intro hall hne
    obtain ⟨r,hr⟩ := exists_mem_of_ne_nil _ hne
    exact (content_eq_iff (fits_of_mem hr) (hle batch hbatch)).1 (hall r hr)
  · intro hnames r hr
    exact (content_eq_iff (fits_of_mem hr) (hle batch hbatch)).2 (hnames (ne_nil_of_mem hr))

theorem numRows_merged (h : mt.merged = .ok merged) :
    merged.numRows = (mt.pendingBatches.flatMap contents).length := by
  obtain ⟨first,-,-,hcontents⟩ := contents_merged h
  have hlen := congrArg List.length hcontents
  rw [contents,length_map] at hlen
  rw [RecordBatch.numRows,hlen,length_flatMap,length_flatMap]
  simp [contents]

end Merged

/-! One flush. -/

section Flush

variable {policy : VectorStoragePolicy} {weather : FlushWeather} {mt : MemTableWriter}
  {merged : RecordBatch}

theorem flush_of_empty (h : mt.pendingEmbeddings = []) :
    mt.flush policy weather = ⟨.ok 0, { mt with lastFlush := weather.now }, []⟩ := by
  simp [MemTableWriter.flush,h]

theorem flush_of_error (h : mt.pendingEmbeddings ≠ []) {e : AilakeError}
    (hmerged : mt.toMemTable.merged = .error e) : mt.flush policy weather = ⟨.error e, mt, []⟩ := by
  simp [MemTableWriter.flush,h,hmerged]

theorem flush_of_merged (h : mt.pendingEmbeddings ≠ []) (hmerged : mt.toMemTable.merged = .ok merged) :
    (mt.flush policy weather).writer = .new weather.now ∧
      ((writeDeferred policy weather merged mt.pendingEmbeddings = .ok () ∧
          (∃ snapshot, weather.commit = .committed snapshot) ∧
          (∃ snapshot, (mt.flush policy weather).result = .ok snapshot) ∧
          (mt.flush policy weather).files = [⟨merged, mt.pendingEmbeddings⟩]) ∨
        ((∃ e, (mt.flush policy weather).result = .error e) ∧
          ¬(writeDeferred policy weather merged mt.pendingEmbeddings = .ok () ∧
            ∃ snapshot, weather.commit = .committed snapshot))) := by
  have hempty : mt.pendingEmbeddings.isEmpty = false := by simpa using h
  simp only [MemTableWriter.flush,hempty,hmerged,Bool.false_eq_true,if_false]
  cases hwrite : writeDeferred policy weather merged mt.pendingEmbeddings with
  | error e => exact ⟨rfl, .inr ⟨⟨e,rfl⟩, by simp⟩⟩
  | ok u =>
    cases hcommit : weather.commit with
    | committed snapshot => exact ⟨rfl, .inl ⟨rfl,⟨snapshot,rfl⟩,⟨snapshot,rfl⟩,rfl⟩⟩
    | failed e published =>
      exact ⟨rfl, .inr ⟨⟨e,rfl⟩, by simp⟩⟩

theorem writeDeferred_eq_ok (hcounts : merged.numRows = mt.pendingEmbeddings.length) :
    writeDeferred policy weather merged mt.pendingEmbeddings = .ok () ↔
      validateEmbeddingDim policy mt.pendingEmbeddings = .ok () ∧ weather.writeFault = none := by
  have hfile : writeDataFile policy merged mt.pendingEmbeddings none false =
      .ok ⟨merged, if policy.keepRaw then mt.pendingEmbeddings else [], none, false⟩ :=
    if_neg (by simp [hcounts])
  rw [writeDeferred,hfile]
  cases validateEmbeddingDim policy mt.pendingEmbeddings with
  | error e => simp [Bind.bind,Except.bind]
  | ok u => cases weather.writeFault <;> simp [Bind.bind,Except.bind]

/-- What a flush should do with the buffer it starts from. -/
structure FlushKeeps (policy : VectorStoragePolicy) (weather : FlushWeather) (mt : MemTableWriter) :
    Prop where
  undone {e : AilakeError} (h : (mt.flush policy weather).result = .error e) :
    (mt.flush policy weather).writer.toMemTable = mt.toMemTable
  aligned : (rowsOf (mt.flush policy weather).writer.toMemTable).length =
    (mt.flush policy weather).writer.pendingEmbeddings.length
  counts : ∀ f ∈ (mt.flush policy weather).files, f.batch.numRows = f.embeddings.length
  held : (mt.flush policy weather).files.flatMap ShardFile.held ++
      (rowsOf (mt.flush policy weather).writer.toMemTable).zip
        (mt.flush policy weather).writer.pendingEmbeddings =
    (rowsOf mt.toMemTable).zip mt.pendingEmbeddings

theorem flushKeeps_iff (haligned : (rowsOf mt.toMemTable).length = mt.pendingEmbeddings.length) :
    FlushKeeps policy weather mt ↔ Harmless policy weather mt := by
  by_cases hempty : mt.pendingEmbeddings = []
  · -- Nothing happens.
    refine ⟨fun _ => .inl hempty, fun _ => ?_⟩
    have hflush : mt.flush policy weather = _ := flush_of_empty hempty
    exact ⟨fun _ => by rw [hflush], by rw [hflush]; exact haligned, by simp [hflush],
      by rw [hflush]; rfl⟩
  cases hmerged : mt.toMemTable.merged with
  | error e =>
    refine ⟨fun _ => .inr (.inl ⟨e,hmerged⟩), fun _ => ?_⟩
    have hflush : mt.flush policy weather = _ := flush_of_error hempty hmerged
    exact ⟨fun _ => by rw [hflush], by rw [hflush]; exact haligned, by simp [hflush],
      by rw [hflush]; rfl⟩
  | ok merged =>
    have hcounts : merged.numRows = mt.pendingEmbeddings.length :=
      (numRows_merged hmerged).trans haligned
    have hflush := @flush_of_merged policy weather mt merged hempty hmerged
    obtain ⟨hwriter,hcases⟩ := hflush
    rw [writeDeferred_eq_ok hcounts] at hcases
    have hnames := contents_merged_eq_iff hmerged
    rcases hcases with ⟨⟨hdim,hfault⟩,hcommit,⟨snapshot,hresult⟩,hfiles⟩ | ⟨⟨e,hresult⟩,hnot⟩
    · have hheld : (contents merged).zip mt.pendingEmbeddings =
            (rowsOf mt.toMemTable).zip mt.pendingEmbeddings ↔
          contents merged = rowsOf mt.toMemTable := by
        refine ⟨fun h => ?_, fun h => by rw [h]⟩
        have hmap := congrArg (List.map Prod.fst) h
        rwa [map_fst_zip (by simp [contents,← hcounts,RecordBatch.numRows]),
          map_fst_zip haligned.le] at hmap
      constructor
      · intro h
        have h := h.held
        rw [hwriter,hfiles] at h
        refine .inr (.inr ⟨hnames.1 (hheld.1 ?_), hdim, hfault, hcommit⟩)
        simpa [ShardFile.held,rowsOf,MemTableWriter.new,MemTable.empty] using h
      · rintro (h | ⟨e,h⟩ | ⟨h,-⟩)
        · exact absurd h hempty
        · rw [hmerged] at h
          cases h
        · refine ⟨fun h => ?_, by rw [hwriter]; rfl, by simpa [hfiles] using hcounts, ?_⟩
          · rw [hresult] at h
            cases h
          · rw [hwriter,hfiles]
            simpa [ShardFile.held,rowsOf,MemTableWriter.new,MemTable.empty] using
              hheld.2 (hnames.2 h)
    · constructor
      · intro h
        have hundone := congrArg MemTable.pendingEmbeddings (h.undone hresult)
        rw [hwriter] at hundone
        exact absurd hundone.symm hempty
      · rintro (h | ⟨e,h⟩ | ⟨-,hdim,hfault,hcommit⟩)
        · exact absurd h hempty
        · rw [hmerged] at h
          cases h
        · exact absurd ⟨⟨hdim,hfault⟩,hcommit⟩ hnot

end Flush

/-! One call. -/

def withInsert (mt : MemTable) : MemTableCall → MemTable
  | .insert batch embeddings => mt.insert batch embeddings
  | .flushIfDue | .flush => mt

section Call

variable {policy : VectorStoragePolicy} {config : MemTableConfig} {s : System}
  {weather : FlushWeather} {c : MemTableCall} {start : MemTableWriter}

theorem unflushed_toMemTable :
    (unflushed policy weather s.writer c).toMemTable = withInsert s.writer.toMemTable c := by
  cases c with
  | insert batch embeddings => rfl
  | flushIfDue =>
    rw [unflushed]
    split
    · rfl
    · rfl
  | flush => rfl

theorem flushed_toMemTable (h : flushed policy config weather s.writer c = some start) :
    start.toMemTable = withInsert s.writer.toMemTable c := by
  cases c with
  | insert batch embeddings =>
    rw [flushed] at h
    split at h
    · cases h
      rfl
    · cases h
  | flushIfDue =>
    rw [flushed] at h
    split at h
    · cases h
    · split at h
      · cases h
        rfl
      · cases h
  | flush =>
    cases h
    rfl

theorem held_withInsert (h : Lossless s)
    (hcounts : ∀ batch embeddings, c = .insert batch embeddings → batch.numRows = embeddings.length) :
    (rowsOf (withInsert s.writer.toMemTable c)).length =
        (withInsert s.writer.toMemTable c).pendingEmbeddings.length ∧
      s.files.flatMap ShardFile.held ++ (rowsOf (withInsert s.writer.toMemTable c)).zip
        (withInsert s.writer.toMemTable c).pendingEmbeddings = s.accepted ++ offered c := by
  cases c with
  | insert batch embeddings =>
    have hcounts := hcounts batch embeddings rfl
    have hrows : rowsOf (withInsert s.writer.toMemTable (.insert batch embeddings)) =
        rowsOf s.writer.toMemTable ++ contents batch := by
      simp [rowsOf,withInsert,MemTable.insert]
    have hembeddings : (withInsert s.writer.toMemTable (.insert batch embeddings)).pendingEmbeddings =
        s.writer.pendingEmbeddings ++ embeddings := rfl
    rw [hrows,hembeddings,zip_append h.aligned,← append_assoc,h.held,offered,
      if_pos hcounts]
    refine ⟨?_,rfl⟩
    rw [length_append,length_append,h.aligned,contents,length_map,← hcounts]
    rfl
  | flushIfDue => exact ⟨h.aligned, by rw [withInsert,h.held,offered,append_nil]⟩
  | flush => exact ⟨h.aligned, by rw [withInsert,h.held,offered,append_nil]⟩

theorem after_of_flushed (h : flushed policy config weather s.writer c = some start) :
    s.after policy config weather c = ⟨(start.flush policy weather).writer,
      s.files ++ (start.flush policy weather).files, s.accepted ++ offered c⟩ := by
  simp only [System.after,call,h]

theorem after_of_unflushed (h : flushed policy config weather s.writer c = none) :
    s.after policy config weather c =
      ⟨unflushed policy weather s.writer c, s.files, s.accepted ++ offered c⟩ := by
  simp only [System.after,call,h,append_nil]

theorem counts_of_lawful (h : Lawful policy config s (weather, c) (s.after policy config weather c))
    {batch : RecordBatch} {embeddings : List (List F32)} (hinsert : c = .insert batch embeddings) :
    batch.numRows = embeddings.length := by
  by_contra hcounts
  obtain ⟨⟨e,herror⟩,hsame⟩ := h.refuses hinsert hcounts
  cases hstart : flushed policy config weather s.writer c with
  | none => simp [call,hstart] at herror
  | some start =>
    have herror : (start.flush policy weather).result = .error e := by
      simp only [call,hstart] at herror
      cases hresult : (start.flush policy weather).result with
      | error e' =>
        rw [hresult] at herror
        cases herror
        rfl
      | ok snapshot =>
        rw [hresult] at herror
        cases herror
    have hkept := (h.keeps hstart herror).symm.trans hsame
    rw [flushed_toMemTable hstart,hinsert] at hkept
    have hlength := congrArg (fun mt : MemTable => mt.pendingBatches.length) hkept
    simp [withInsert,MemTable.insert] at hlength

theorem flushKeeps_of_lawful (h : Lossless s)
    (hlawful : Lawful policy config s (weather, c) (s.after policy config weather c))
    (hstart : flushed policy config weather s.writer c = some start) :
    FlushKeeps policy weather start := by
  obtain ⟨haligned,hheld⟩ := held_withInsert h fun _ _ => counts_of_lawful hlawful
  have hlossless := hlawful.lossless
  rw [after_of_flushed hstart] at hlossless
  refine ⟨fun herror => ?_, hlossless.aligned, fun f hf => ?_, ?_⟩
  · have hkept := hlawful.keeps hstart herror
    rw [after_of_flushed hstart] at hkept
    exact hkept
  · exact hlossless.files f (mem_append_right _ hf)
  · have hafter := hlossless.held
    rw [flatMap_append,append_assoc,← hheld,← flushed_toMemTable hstart] at hafter
    exact append_cancel_left hafter

theorem orderly_of_lawful (h : Lossless s)
    (hlawful : Lawful policy config s (weather, c) (s.after policy config weather c)) :
    Orderly policy config s (weather, c) where
  counts := counts_of_lawful hlawful
  flush {start} hstart := by
    obtain ⟨haligned,-⟩ := held_withInsert h fun _ _ => counts_of_lawful hlawful
    rw [← flushed_toMemTable hstart] at haligned
    exact (flushKeeps_iff haligned).1 (flushKeeps_of_lawful h hlawful hstart)

theorem lawful_of_orderly (h : Lossless s) (horderly : Orderly policy config s (weather, c)) :
    Lawful policy config s (weather, c) (s.after policy config weather c) := by
  obtain ⟨haligned,hheld⟩ := held_withInsert h fun _ _ => horderly.counts
  have hrefuses {t : System} {batch : RecordBatch} {embeddings : List (List F32)}
      (hinsert : c = .insert batch embeddings) (hcounts : batch.numRows ≠ embeddings.length) :
      (∃ e, (call policy config weather s.writer c).1 = .error e) ∧
        t.writer.toMemTable = s.writer.toMemTable := absurd (horderly.counts hinsert) hcounts
  cases hstart : flushed policy config weather s.writer c with
  | none =>
    have hunflushed : (unflushed policy weather s.writer c).toMemTable = _ := unflushed_toMemTable
    rw [← hunflushed] at haligned hheld
    refine ⟨?_, fun hsome => ?_, hrefuses⟩
    · rw [after_of_unflushed hstart]
      exact ⟨haligned,h.files,hheld⟩
    · rw [hstart] at hsome
      cases hsome
  | some start =>
    rw [← flushed_toMemTable hstart] at haligned hheld
    have hflush := (flushKeeps_iff haligned).2 (horderly.flush hstart)
    refine ⟨?_, fun {_} hsome {_} herror => ?_, hrefuses⟩
    · rw [after_of_flushed hstart]
      refine ⟨hflush.aligned, fun f hf => ?_, ?_⟩
      · rcases mem_append.1 hf with hf | hf
        · exact h.files f hf
        · exact hflush.counts f hf
      · rw [flatMap_append,append_assoc,hflush.held,hheld]
    · obtain rfl := Option.some.inj (hstart.symm.trans hsome)
      rw [after_of_flushed hstart]
      exact hflush.undone herror

end Call

theorem lossless_new (now : Nat) : Lossless ⟨.new now, [], []⟩ :=
  ⟨rfl, by simp, rfl⟩

/-- In every run the rows are kept, failed flushes change nothing and odd inserts are refused exactly when
every call meets the condition. -/
theorem lossless_iff_orderly (policy : VectorStoragePolicy) (config : MemTableConfig) (now : Nat)
    (labels : List (FlushWeather × MemTableCall)) (t : System) :
    History (fun s label t => Step policy config s label t ∧ Lawful policy config s label t)
        ⟨.new now, [], []⟩ labels t ↔
      History (fun s label t => Step policy config s label t ∧ Orderly policy config s label)
        ⟨.new now, [], []⟩ labels t := by
  constructor
  · intro h
    induction h with
    | start => exact .start
    | @step labels s t label hs hstep ih =>
      obtain ⟨rfl,hlawful⟩ := hstep
      have hlossless := hs.invariant Lossless (fun _ _ _ _ hst => hst.2.lossless) (lossless_new now)
      exact ih.step ⟨rfl, orderly_of_lawful hlossless hlawful⟩
  · intro h
    induction h with
    | start => exact .start
    | @step labels s t label hs hstep ih =>
      obtain ⟨rfl,horderly⟩ := hstep
      have hlossless := ih.invariant Lossless (fun _ _ _ _ hst => hst.2.lossless) (lossless_new now)
      exact ih.step ⟨rfl, lawful_of_orderly hlossless horderly⟩

def demoPolicy : VectorStoragePolicy := ⟨"v", 1, .f32, true, none, none⟩

def demoBatch : RecordBatch := ⟨[⟨"id", .int64, false⟩], [⟨7, [some (.int 7)]⟩], rfl⟩

/-- A row is inserted; the commit of the flush fails without being published. The row is nowhere. -/
theorem flush_failure_loses_rows :
    ∃ (labels : List (FlushWeather × MemTableCall)) (t : System),
      History (Step demoPolicy ⟨100, 100, 30⟩) ⟨.new 0, [], []⟩ labels t ∧
        t.accepted = [((7, [("id", some (.int 7))]), [0])] ∧ t.files = [] ∧
        t.writer.pendingBatches = [] ∧ ¬Lossless t := by
  have hinsert : History (Step demoPolicy ⟨100,100,30⟩) ⟨.new 0, [], []⟩ _ _ :=
    .step .start (a := (⟨1, none, .committed 1⟩, .insert demoBatch [[0]])) rfl
  have hflush := hinsert.step (a := (⟨2, none, .failed .store false⟩, .flush)) rfl
  refine ⟨_, _, hflush, rfl, rfl, rfl, fun h => ?_⟩
  cases h.held

end AiLake.MemTables
