import AiLake.FileFormat

/-! `compaction.rs`: which files a pass takes, the three ways to merge them, and the Replace commit
that puts the merged file in their place. -/
namespace AiLake

open StoreProgram

structure CompactionConfig where
  targetFileSizeBytes : Nat
  minFilesToCompact : Nat
  maxFilesPerPass : Nat
  deriving DecidableEq, Repr

/-- `sort_unstable_by_key` on the file size: some ordering of the files, smallest first. -/
structure CompactionPlanner where
  config : CompactionConfig
  sort : List DataFileEntry → List DataFileEntry
  sort_perm : ∀ files, (sort files).Perm files
  sort_sorted : ∀ files, (sort files).Pairwise fun a b => a.fileSizeBytes ≤ b.fileSizeBytes

namespace CompactionPlanner

/- Files without an AI-Lake index go first and do not count for the minimum. -/
def plan (planner : CompactionPlanner) (files : List DataFileEntry) : List DataFileEntry :=
  let foreign := files.filter (·.isForeign)
  let natives := files.filter fun f => !f.isForeign
  let candidates := natives.filter fun f => f.fileSizeBytes < planner.config.targetFileSizeBytes
  if candidates.length < planner.config.minFilesToCompact then
    if foreign.isEmpty then []
    else (planner.sort foreign).take planner.config.maxFilesPerPass
  else (planner.sort foreign ++ planner.sort candidates).take planner.config.maxFilesPerPass

end CompactionPlanner

inductive CompactionIndexStrategy where
  | auto
  | forceHnsw
  | forceIvfPq
  deriving DecidableEq, Repr

structure CompactionExecutor where
  policy : VectorStoragePolicy
  strategy : CompactionIndexStrategy
  fts : Bool
  deriving DecidableEq, Repr

namespace CompactionExecutor

/- `with_effective_fts`: the table says whether its files have a text index. -/
def withEffectiveFts (ex : CompactionExecutor) (props : Properties) : CompactionExecutor :=
  if ex.fts then ex else { ex with fts := props.get "ailake.fts.enabled" = some "true" }

def indexKind (ex : CompactionExecutor) (fmt : FileFormat) (vectors : Nat) : IndexKind :=
  match ex.strategy with
  | .auto => fmt.autoIndex vectors
  | .forceHnsw => .hnsw
  | .forceIvfPq => .ivfPq

variable (site : Site) (fmt : FileFormat) (ex : CompactionExecutor)

def mergedEntry (files : List DataFileEntry) (outputPath : String) (file : DataFile)
    (embeddings : List (List F32)) (firstRowId : Option Int) : DataFileEntry :=
  { makeDataFileEntry outputPath file.batch.numRows (fmt.size file) (fmt.centroid embeddings)
      ⟨ex.policy.columnName, ex.policy.dim, fmt.indexOffset file, fmt.indexLen file⟩ with
    firstRowId := firstRowId
    batchId := mergeBatchIds fmt files
    columnStats := fmt.columnStats file }

/-- Writing a merged file with its index, and the check of it that follows. -/
def writeMerged (files : List DataFileEntry) (outputPath : String) (batch : RecordBatch)
    (embeddings : List (List F32)) (index : VectorIndex) (firstRowId : Option Int) :
    Program DataFileEntry := do
  let file ← Prog.ofExcept (writeDataFile ex.policy batch embeddings (some index)
    (ex.fts && fmt.ftsBuilds batch))
  putObject site outputPath (.dataFile file)
  Prog.ofExcept file.verifyIntegrity
  pure (mergedEntry fmt ex files outputPath file embeddings firstRowId)

def compact (files : List DataFileEntry) (outputPath : String) : Program DataFileEntry :=
  if files.isEmpty then .fail (.catalog "compact: no files provided")
  else do
    let reads ← readFilesParallel site files
    let merged ← Prog.ofExcept (mergeReads reads)
    writeMerged site fmt ex files outputPath merged.1 merged.2
      ⟨ex.indexKind fmt merged.2.length, merged.2.length⟩ (minFirstRowId files)

/-- The last of the files with the most rows. -/
def dominant (first : DataFileEntry) (rest : List DataFileEntry) : DataFileEntry :=
  rest.foldl (fun best f => if best.recordCount ≤ f.recordCount then f else best) first

/- A graph can be reused when it is an HNSW index. -/
def reusableGraph (file : DataFile) : Option Nat :=
  match file.index with
  | some ⟨.hnsw, nodeCount⟩ => some nodeCount
  | _ => none

/-- The files of the dominant path, of which the last one counts, and the other ones. -/
def splitDominant (path : String) (reads : List SourceRead) :
    Option SourceRead × List SourceRead :=
  ((reads.filter fun r => r.entry.path = path).getLast?, reads.filter fun r => r.entry.path ≠ path)

/- A share below 0.40 is `5 * rows < 2 * total`; with no rows at all the source compares a NaN and
goes on. -/
def compactIncremental (files : List DataFileEntry) (outputPath : String) :
    Program DataFileEntry :=
  match files with
  | [] => .fail (.catalog "compact_incremental: no files provided")
  | first :: rest =>
    let dom := dominant first rest
    if ex.strategy = .forceIvfPq then compact site fmt ex files outputPath
    else if dom.deletionVector.isSome then compact site fmt ex files outputPath
    else if 5 * dom.recordCount < 2 * (files.map (·.recordCount)).sum then
      compact site fmt ex files outputPath
    else do
      let reads ← readFilesParallel site files
      match splitDominant dom.path reads with
      | (none, _) => compact site fmt ex files outputPath
      | (some domRead, others) =>
        match reusableGraph domRead.file with
        | none => compact site fmt ex files outputPath
        | some nodes => do
          let merged ← Prog.ofExcept (mergeReads (domRead :: others))
          writeMerged site fmt ex files outputPath merged.1 merged.2
            ⟨.hnsw, nodes + (others.flatMap (·.vectors)).length⟩ dom.firstRowId

/- The index follows later; the entry is `Indexing` until then. -/
def compactDeferred (files : List DataFileEntry) (outputPath : String) : Program DataFileEntry :=
  if files.isEmpty then .fail (.catalog "compact_deferred: no files provided")
  else do
    let reads ← readFilesParallel site files
    let merged ← Prog.ofExcept (mergeReads reads)
    let file ← Prog.ofExcept (writeDataFile ex.policy merged.1 merged.2 none false)
    putObject site outputPath (.dataFile file)
    pure { makeDataFileEntryIndexing outputPath file.batch.numRows (fmt.size file)
        (fmt.centroid merged.2) ex.policy.columnName ex.policy.dim with
      firstRowId := minFirstRowId files
      batchId := mergeBatchIds fmt files
      columnStats := fmt.columnStats file }

end CompactionExecutor

section Run

variable (site : Site) (fmt : FileFormat)

def replaceSnapshot (snapshotId : SnapshotId) (parent : Option SnapshotId)
    (files : List DataFileEntry) : NewSnapshot where
  snapshotId := snapshotId
  parentSnapshotId := parent
  files := files
  operation := .replace
  icebergSchema := none
  extraProperties := []
  bloomFilters := []
  equalityDeleteFiles := []

def buildReplaceFileList (toCompact : List DataFileEntry) (merged : DataFileEntry) :
    Program (List DataFileEntry) := do
  let current ← listFiles site none
  pure (current.filter (fun f => f.path ∉ toCompact.map (·.path)) ++ [merged])

def deleteOldFiles : List DataFileEntry → Program Unit
  | [] => pure ()
  | entry :: rest => do
    let _ ← Prog.delete (site.locate entry.path)
    deleteOldFiles rest

def currentSnapshotOrNone : Program (Option SnapshotId) := do
  match ← (loadTable site).attempt with
  | .ok table => pure table.currentSnapshotId
  | .error _ => pure none

/-- The list is read again, and committed as a Replace. -/
def commitCompaction (toCompact : List DataFileEntry) (merged : DataFileEntry)
    (snapshotId : SnapshotId) (nowMs : Int) : Program Unit := do
  let files ← buildReplaceFileList site toCompact merged
  let parent ← currentSnapshotOrNone site
  let _ ← commitSnapshot site (replaceSnapshot snapshotId parent files) nowMs
  deleteOldFiles site toCompact

/-- `run` merges incrementally; the other two are the full rebuild and `run_deferred`. -/
inductive CompactionMode where
  | full
  | incremental
  | deferred
  deriving DecidableEq, Repr

def CompactionMode.merge (mode : CompactionMode) (ex : CompactionExecutor)
    (files : List DataFileEntry) (outputPath : String) : Program DataFileEntry :=
  match mode with
  | .full => ex.compact site fmt files outputPath
  | .incremental => ex.compactIncremental site fmt files outputPath
  | .deferred => ex.compactDeferred site fmt files outputPath

/- The deferred run does not look at the table's properties. -/
def effectiveExecutor (mode : CompactionMode) (ex : CompactionExecutor) :
    Program CompactionExecutor :=
  match mode with
  | .deferred => pure ex
  | _ => do
    match ← (loadTable site).attempt with
    | .ok table => pure (ex.withEffectiveFts table.properties)
    | .error _ => pure (ex.withEffectiveFts [])

def outputPath (outputPrefix : String) (ts : Nat) : String :=
  outputPrefix ++ "/compacted-" ++ toString ts ++ ".parquet"

def compactionRun (mode : CompactionMode) (select : List DataFileEntry → List DataFileEntry)
    (ex : CompactionExecutor) (outputPrefix : String) (ts : Nat) (snapshotId : SnapshotId)
    (nowMs : Int) : Program (Option DataFileEntry) := do
  let all ← listFiles site none
  let toCompact := select all
  if toCompact.isEmpty then pure none
  else do
    let ex ← effectiveExecutor site mode ex
    let merged ← mode.merge site fmt ex toCompact (outputPath outputPrefix ts)
    commitCompaction site toCompact merged snapshotId nowMs
    pure (some merged)

end Run
end AiLake
