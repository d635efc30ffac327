import AiLake.FileFormat
import AiLake.Ranking
import AiLake.SchemaFiller

/-! `scanner.rs`: vector search, text search and preloaded sessions. What indexes and scorers
compute is a `SearchEngine`; what they return is filtered here. -/
namespace AiLake

open StoreProgram

namespace F32

/- `total_cmp` compares these numbers. -/
def totalOrder (x : F32) : Int := if x.msb then -1 - (x.toNat - 2 ^ 31 : Nat) else x.toNat

def neg (x : F32) : F32 := x ^^^ 0x80000000#32

/- `x > 0.0`, which no NaN is. -/
def isPositive (x : F32) : Bool := 0 < x.toNat ∧ x.toNat ≤ 0x7F800000

end F32

def parseMetric : String → VectorMetric
  | "euclidean" => .euclidean
  | "dotproduct" | "dot_product" | "dot" => .dotProduct
  | "normalized_cosine" | "normalizedcosine" => .normalizedCosine
  | _ => .cosine

inductive FilterOp where
  | eq
  | ne
  | lt
  | lte
  | gt
  | gte
  deriving DecidableEq, Repr

inductive FilterValue where
  | i64 (n : Int)
  | f64 (x : F64)
  | str (s : String)
  | bool (b : Bool)
  deriving DecidableEq, Repr

structure ColumnFilter where
  column : String
  op : FilterOp
  value : FilterValue
  deriving DecidableEq, Repr

inductive HybridFusion where
  | rrf
  | linear
  deriving DecidableEq, Repr

structure HybridConfig where
  queryText : String
  textColumns : List String
  bm25Weight : F32
  fusion : HybridFusion
  candidatePool : Option Nat
  deriving DecidableEq, Repr

structure SearchConfig where
  topK : Nat
  efSearch : Nat
  pruningThreshold : F32
  rerankFactor : Option Nat
  hybrid : Option HybridConfig
  scoreFn : Option (F32 → RecordBatch → F32)
  partitionFilter : Option String
  columnFilter : Option ColumnFilter
  strictDeletes : Bool

@[ext] structure SearchResult where
  rowId : Nat
  distance : F32
  filePath : String
  deriving DecidableEq, Repr

/-- A loaded index: the hits for a query, a number of hits and a search width. -/
abbrev AnyIndex := List F32 → Nat → Nat → List (Nat × F32)

/-- Cutting results down to the nearest `k`. The order among equal distances, and with NaN any
order, is the sort's choice. -/
structure TopK where
  select : Nat → List SearchResult → List SearchResult
  mem_of_select : ∀ k results, ∀ r ∈ select k results, r ∈ results

/-- Distances, indexes, scorers and pruners. -/
structure SearchEngine where
  casts : FloatCasts
  exactDistance : VectorMetric → List F32 → List F32 → F32
  keepsFile : VectorMetric → F32 → List F32 → DataFileEntry → Bool
  keepsShard : VectorMetric → F32 → List F32 → DataFileEntry → Bool
  loadIndex : DataFile → String → Except AilakeError AnyIndex
  quantizeToF16 : AnyIndex → AnyIndex
  flatSearch : List (List F32) → List F32 → Nat → VectorMetric → List (Nat × F32)
  gpuSearchBatch : List (List F32) → List (List F32) → VectorMetric → Nat →
    Option (List (List (Nat × F32)))
  matchingRowIds : ColumnFilter → DataFile → Except AilakeError (Finset Nat)
  mayContain : List UInt8 → Option (String → Bool)
  tokenize : String → List String
  bm25 : Option Object → String → String → F32
  fusedScores : HybridConfig → List (F32 × F32) → List F32
  fts : DataFile → Option (String → Nat → List (Nat × F32))
  selectSearchTopK : TopK
  sortByDistance : TopK

def maxTopK : Nat := 100000

def infinity : F32 := 0x7F800000#32

/- `str::parse::<u32>`. -/
def parseU32 (s : String) : Option Nat :=
  let digits := match s.toList with
    | '+' :: rest => rest
    | chars => chars
  if digits.isEmpty ∨ !digits.all Char.isDigit then none
  else
    let n := digits.foldl (fun n c => 10 * n + (c.toNat - '0'.toNat)) 0
    if n < 2 ^ 32 then some n else none

def checkTopK (topK : Nat) : Except AilakeError Unit :=
  if topK > maxTopK then
    .error (.invalidArgument ("top_k " ++ toString topK ++ " exceeds maximum supported value (" ++
      toString maxTopK ++ ")"))
  else .ok ()

/- A search without a filter sees every file; with one, files without a value are pruned. -/
def inPartition (filter : Option String) (entry : DataFileEntry) : Bool :=
  filter.all fun value => entry.partitionValue = some value

/-- The valid strings of a row in these columns, with a blank between them. -/
def rowText (batch : RecordBatch) (i : Nat) (columns : List String) : String :=
  " ".intercalate (columns.filterMap fun name =>
    (batch.rows[i]?).bind fun r =>
      match r.column batch.schema name with
      | some (⟨_, .utf8, _⟩, some (.str s)) => some s
      | _ => none)

section Deletes

variable (site : Site) (tx : TextForms)

def EqualityDeleteFilter.fromFiles : List EqualityDeleteFile → Program EqualityDeleteFilter
  | [] => pure []
  | d :: rest => do
    match ← getObject site d.path with
    | .equalityDelete payload => do
      let filters ← EqualityDeleteFilter.fromFiles rest
      pure (EqualityDeleteFilter.ofFiles tx [(d.sequenceNumber, payload)] ++ filters)
    | _ => .fail (.catalog "not an equality delete file")

/- With `strictDeletes` off, deletes that cannot be read are left out. -/
def loadEqualityDeleteFilter (strictDeletes : Bool) : Program EqualityDeleteFilter := do
  let load : Program EqualityDeleteFilter := do
    let deletes ← listEqualityDeletes site none
    EqualityDeleteFilter.fromFiles site tx deletes
  match ← load.attempt with
  | .ok filter => pure filter
  | .error e => if strictDeletes then .fail e else pure []

def loadBitmap (strictDeletes : Bool) : Option DeletionVector → Program (Option Bitmap)
  | none => pure none
  | some dv => do
    match ← (loadDeletionVector site dv).attempt with
    | .ok bitmap => pure (some bitmap)
    | .error e => if strictDeletes then .fail e else pure none

end Deletes

/-! One file. -/

/-- A hit that hybrid search ranks later. -/
structure Candidate where
  rowId : Nat
  distance : F32
  filePath : String
  text : String
  deriving DecidableEq, Repr

structure FileSearchOutcome where
  results : List SearchResult
  candidates : List Candidate

section OneFile

variable (eng : SearchEngine) (tx : TextForms)

/- `apply_score_fn` on the one row. -/
def applyScoreFn (scoreFn : Option (F32 → RecordBatch → F32)) (distance : F32) (i : Nat)
    (batch : RecordBatch) : F32 :=
  match scoreFn with
  | none => distance
  | some f =>
    if i < batch.numRows then f distance (batch.filterRows fun j _ => j = i) else distance

def skips (bitmap : Option Bitmap) (filter : EqualityDeleteFilter) (batch : Option RecordBatch)
    (matching : Option (Finset Nat)) (entry : DataFileEntry) (i : Nat) : Bool :=
  bitmap.any (·.hides i) ||
    batch.any (fun b => filter.shouldDeleteRow tx b i entry.sequenceNumber) ||
    matching.any fun ids => i ∉ ids

def pushHits (config : SearchConfig) (entry : DataFileEntry) (batch : Option RecordBatch)
    (hits : List (Nat × F32)) : FileSearchOutcome :=
  match config.hybrid with
  | some h =>
    ⟨[], hits.map fun hit => ⟨hit.1, hit.2, entry.path,
      batch.elim "" fun b => rowText b hit.1 h.textColumns⟩⟩
  | none =>
    ⟨hits.map fun hit => ⟨hit.1, batch.elim hit.2 fun b => applyScoreFn config.scoreFn hit.2 hit.1 b,
      entry.path⟩, []⟩

/-- The rows that a column filter leaves; an empty set ends the search of the file. -/
def matchingRows (config : SearchConfig) (file : DataFile) :
    Except AilakeError (Option (Finset Nat)) :=
  match config.columnFilter with
  | none => .ok none
  | some f => (eng.matchingRowIds f file).map some

def readFilled (schemaFields : List SchemaField) (file : DataFile) :
    Except AilakeError (RecordBatch × List (List F32)) :=
  file.readParquet.bind fun pair =>
    (SchemaFiller.fill eng.casts pair.1 schemaFields).map fun batch => (batch, pair.2)

/- Beside the index, the rows are read for exact distances, scores, texts and equality deletes. -/
def parquetData (schemaFields : List SchemaField) (config : SearchConfig)
    (filter : EqualityDeleteFilter) (file : DataFile) :
    Except AilakeError (Option (RecordBatch × List (List F32))) :=
  if config.rerankFactor.isSome ∨ config.scoreFn.isSome ∨ config.hybrid.isSome ∨
      ¬filter.isEmpty then
    (readFilled eng schemaFields file).map some
  else .ok none

/- The search of a file whose bytes are at hand: an exact scan while there is no index. -/
def searchFile (query : List F32) (candidateK : Nat) (metric : VectorMetric)
    (tableMeta : TableMetadata) (config : SearchConfig) (vectorColumn : String)
    (filter : EqualityDeleteFilter) (bitmap : Option Bitmap) (entry : DataFileEntry)
    (file : DataFile) : Except AilakeError FileSearchOutcome := do
  let matching ← matchingRows eng config file
  if matching = some ∅ then .ok ⟨[], []⟩
  else if entry.indexStatus = .indexing ∨ file.index.isNone then do
    let pair ← readFilled eng tableMeta.schemaFields file
    let hits := eng.flatSearch pair.2 query candidateK metric
    .ok (pushHits config entry (some pair.1)
      (hits.filter fun hit => !skips tx bitmap filter (some pair.1) matching entry hit.1))
  else do
    let index ← eng.loadIndex file vectorColumn
    let hits := index query candidateK config.efSearch
    let data ← parquetData eng tableMeta.schemaFields config filter file
    let batch := data.map Prod.fst
    let reranked (hit : Nat × F32) : Nat × F32 :=
      if config.rerankFactor.isSome then
        (hit.1, ((data.bind fun pair => pair.2[hit.1]?).map
          (eng.exactDistance metric query)).getD infinity)
      else hit
    .ok (pushHits config entry batch
      ((hits.filter fun hit => !skips tx bitmap filter batch matching entry hit.1).map reranked))

end OneFile

section Search

variable (site : Site) (eng : SearchEngine) (tx : TextForms)

/- A few range reads; the whole file stands for them. -/
def loadPrimaryIndex (path vectorColumn : String) : Program AnyIndex := do
  let file ← getDataFile site path
  match file.index with
  | none => .fail (.parquet "file is not a valid AI-Lake file (no AILK trailer)")
  | some _ => Prog.ofExcept (eng.loadIndex file vectorColumn)

def primaryColumn (tableMeta : TableMetadata) : String :=
  (tableMeta.properties.get "ailake.vector-column").getD ""

/- Nothing but the index is needed. -/
def fastPathEligible (tableMeta : TableMetadata) (config : SearchConfig) (vectorColumn : String)
    (filter : EqualityDeleteFilter) (entry : DataFileEntry) : Bool :=
  config.columnFilter.isNone ∧ config.rerankFactor.isNone ∧ config.scoreFn.isNone ∧
    config.hybrid.isNone ∧ filter.isEmpty ∧ entry.indexStatus = .ready ∧ ¬entry.isForeign ∧
    vectorColumn = primaryColumn tableMeta

/- Whatever goes wrong on the fast path, the file is then searched in full. -/
def fastPath (tableMeta : TableMetadata) (config : SearchConfig) (vectorColumn : String)
    (filter : EqualityDeleteFilter) (entry : DataFileEntry) : Program (Option AnyIndex) :=
  if fastPathEligible tableMeta config vectorColumn filter entry then do
    match ← (loadPrimaryIndex site eng entry.path vectorColumn).attempt with
    | .ok index => pure (some index)
    | .error _ => pure none
  else pure none

def searchOneFile (query : List F32) (candidateK : Nat) (metric : VectorMetric)
    (tableMeta : TableMetadata) (config : SearchConfig) (vectorColumn : String)
    (filter : EqualityDeleteFilter) (entry : DataFileEntry) : Program FileSearchOutcome := do
  let bitmap ← loadBitmap site config.strictDeletes entry.deletionVector
  match ← fastPath site eng tableMeta config vectorColumn filter entry with
  | some index =>
    let hits := index query candidateK config.efSearch
    pure ⟨(hits.filter fun hit => !bitmap.any (·.hides hit.1)).map fun hit =>
      ⟨hit.1, hit.2, entry.path⟩, []⟩
  | none => do
    let file ← getDataFile site entry.path
    Prog.ofExcept (searchFile eng tx query candidateK metric tableMeta config vectorColumn filter
      bitmap entry file)

/-! All files. -/

def validateQueryDim (tableMeta : TableMetadata) (vectorColumn : String) (query : List F32) :
    Except AilakeError Unit :=
  let key := if vectorColumn = primaryColumn tableMeta then "ailake.vector-dim"
    else "ailake.dim-" ++ vectorColumn
  match (tableMeta.properties.get key).bind parseU32 with
  | none => .ok ()
  | some tableDim =>
    let queryDim := query.length % 2 ^ 32
    if queryDim ≠ tableDim then
      .error (.modelMismatch
        ((tableMeta.properties.get "ailake.embedding-model").getD ("dim=" ++ toString tableDim))
        tableDim ("query dim=" ++ toString queryDim) queryDim)
    else .ok ()

def searchMetric (tableMeta : TableMetadata) (vectorColumn : String) : VectorMetric :=
  let key := if vectorColumn = primaryColumn tableMeta then "ailake.vector-metric"
    else "ailake.metric-" ++ vectorColumn
  parseMetric (((tableMeta.properties.get key).or
    (tableMeta.properties.get "ailake.vector-metric")).getD "cosine")

def loadBloomMap (tableMeta : TableMetadata) : Program (List (String × (String → Bool))) :=
  match tableMeta.currentStatisticsPath with
  | none => pure []
  | some path => do
    match ← Prog.get (site.locate path) with
    | some (.statistics _ blooms) =>
      pure (blooms.filterMap fun b => (eng.mayContain b.2).map fun f => (b.1, f))
    | _ => pure []

/- Files without a Bloom filter are kept. -/
def bloomKeeps (queryText : String) (blooms : List (String × (String → Bool)))
    (entry : DataFileEntry) : Bool :=
  let terms := eng.tokenize queryText
  terms.isEmpty || match blooms.reverse.find? fun b => b.1 = entry.path with
    | some b => terms.any b.2
    | none => true

def bm25StatsPath (tableMeta : TableMetadata) : String :=
  (tableMeta.properties.get "ailake.bm25.stats-path").getD "metadata/ailake_bm25_stats.bin"

def loadBm25Stats (tableMeta : TableMetadata) : Program (Option Object) := do
  let key := site.locate (bm25StatsPath tableMeta)
  if ← Prog.head key then Prog.get key else pure none

/- Reads of the statistics never fail a search. -/
def bloomPrune (tableMeta : TableMetadata) (hybrid : Option HybridConfig)
    (files : List DataFileEntry) : Program (List DataFileEntry) :=
  match hybrid with
  | none => pure files
  | some h => do
    let blooms ← loadBloomMap site eng tableMeta
    pure (files.filter (bloomKeeps eng h.queryText blooms))

def hybridStats (tableMeta : TableMetadata) (hybrid : Option HybridConfig) :
    Program (Option Object) :=
  match hybrid with
  | none => pure none
  | some h => if h.textColumns.isEmpty then pure none else loadBm25Stats site tableMeta

def candidateCount (config : SearchConfig) : Nat :=
  match config.hybrid, config.rerankFactor with
  | some h, factor =>
    max (h.candidatePool.getD (config.topK * 10)) (factor.elim config.topK (· * config.topK))
  | none, some factor => config.topK * factor
  | none, none => config.topK

/- Without hybrid search the results are cut down after every file. -/
def searchFiles (query : List F32) (metric : VectorMetric) (tableMeta : TableMetadata)
    (config : SearchConfig) (vectorColumn : String) (filter : EqualityDeleteFilter) :
    FileSearchOutcome → List DataFileEntry → Program FileSearchOutcome
  | found, [] => pure found
  | found, entry :: rest => do
    let outcome ← searchOneFile site eng tx query (candidateCount config) metric tableMeta config
      vectorColumn filter entry
    let results := found.results ++ outcome.results
    searchFiles query metric tableMeta config vectorColumn filter
      ⟨if config.hybrid.isNone then eng.selectSearchTopK.select config.topK results else results,
        found.candidates ++ outcome.candidates⟩ rest

/- The candidates in the order of their distance, with the fused score of each. -/
def fuse (h : HybridConfig) (stats : Option Object) (candidates : List Candidate) :
    List SearchResult :=
  let scored := Ranking.sorted (fun p : Candidate × F32 => p.1.distance.totalOrder)
    (candidates.map fun c => (c, eng.bm25 stats h.queryText c.text))
  List.zipWith (fun p score => ⟨p.1.rowId, score, p.1.filePath⟩) scored
    (eng.fusedScores h (scored.map fun p => (p.1.distance, p.2)))

def searchInner (query : List F32) (config : SearchConfig) (vectorColumn : String)
    (known : Option TableMetadata) : Program (List SearchResult) := do
  Prog.ofExcept (checkTopK config.topK)
  let allFiles ← listFiles site none
  let tableMeta ← match known with
    | some tableMeta => pure tableMeta
    | none => loadTable site
  Prog.ofExcept (validateQueryDim tableMeta vectorColumn query)
  let metric := searchMetric tableMeta vectorColumn
  let files ← bloomPrune site eng tableMeta config.hybrid
    ((allFiles.filter (inPartition config.partitionFilter)).filter
      (eng.keepsFile metric config.pruningThreshold query))
  let filter ← loadEqualityDeleteFilter site tx config.strictDeletes
  let stats ← hybridStats site tableMeta config.hybrid
  let found ← searchFiles site eng tx query metric tableMeta config vectorColumn filter ⟨[], []⟩ files
  let fused := config.hybrid.elim [] fun h => fuse eng h stats found.candidates
  pure (eng.selectSearchTopK.select config.topK (found.results ++ fused))

def search (query : List F32) (config : SearchConfig) (vectorColumn : String) :
    Program (List SearchResult) :=
  searchInner site eng tx query config vectorColumn none

end Search

/-! Preloaded sessions. -/

structure LoadedShard where
  entry : DataFileEntry
  index : Option AnyIndex
  rawVectors : Option (List (List F32))

structure SearchSession where
  shards : List LoadedShard
  metric : VectorMetric

namespace SearchSession

section Load

variable (site : Site) (eng : SearchEngine)

def ensureSnapshotIsDeleteFree (files : List DataFileEntry) (deletes : List EqualityDeleteFile) :
    Except AilakeError Unit :=
  if files.any fun f => f.deletionVector.isSome then
    .error (.invalidArgument
      "SearchSession does not support snapshots with deletion vectors; use search()")
  else if ¬deletes.isEmpty then
    .error (.invalidArgument
      "SearchSession does not support snapshots with equality deletes; use search()")
  else .ok ()

/- A file without an index that is not waiting for one gives no shard. -/
def loadShard (vectorColumn : String) (loadRaw : Bool) (entry : DataFileEntry) (file : DataFile) :
    Except AilakeError (Option LoadedShard) := do
  if entry.indexStatus = .indexing then do
    let pair ← file.readParquet
    .ok (some ⟨entry, none, some pair.2⟩)
  else if file.index.isNone then .ok none
  else do
    let index ← eng.loadIndex file vectorColumn
    if loadRaw then do
      let pair ← file.readParquet
      .ok (some ⟨entry, some (eng.quantizeToF16 index), some pair.2⟩)
    else .ok (some ⟨entry, some index, none⟩)

def loadShards (vectorColumn : String) (loadRaw : Bool) :
    List DataFileEntry → Program (List LoadedShard)
  | [] => pure []
  | entry :: rest => do
    let file ← getDataFile site entry.path
    let shard ← Prog.ofExcept (loadShard eng vectorColumn loadRaw entry file)
    let shards ← loadShards vectorColumn loadRaw rest
    pure (shard.toList ++ shards)

def load (vectorColumn : String) (loadRaw : Bool) : Program SearchSession := do
  let allFiles ← listFiles site none
  let deletes ← listEqualityDeletes site none
  Prog.ofExcept (ensureSnapshotIsDeleteFree allFiles deletes)
  let tableMeta ← loadTable site
  let shards ← loadShards site eng vectorColumn loadRaw allFiles
  pure ⟨shards, parseMetric ((tableMeta.properties.get "ailake.vector-metric").getD "cosine")⟩

end Load

variable (eng : SearchEngine)

def candidateCount (config : SearchConfig) : Nat :=
  config.rerankFactor.elim config.topK (config.topK * ·)

def resultsIn (shard : LoadedShard) (hits : List (Nat × F32)) : List SearchResult :=
  hits.map fun hit => ⟨hit.1, hit.2, shard.entry.path⟩

def searchShard (metric : VectorMetric) (query : List F32) (config : SearchConfig)
    (shard : LoadedShard) : List SearchResult :=
  if !eng.keepsShard metric config.pruningThreshold query shard.entry then []
  else
    match shard.index, shard.rawVectors with
    | some index, raw =>
      let hits := index query (candidateCount config) config.efSearch
      match config.rerankFactor, raw with
      | some _, some raw => resultsIn shard (hits.map fun hit =>
          (hit.1, ((raw[hit.1]?).map (eng.exactDistance metric query)).getD infinity))
      | _, _ => resultsIn shard hits
    | none, some raw => resultsIn shard (eng.flatSearch raw query (candidateCount config) metric)
    | none, none => []

def searchQuery (session : SearchSession) (query : List F32) (config : SearchConfig) :
    List SearchResult :=
  eng.sortByDistance.select config.topK
    (session.shards.flatMap (searchShard eng session.metric query config))

/- Shards with raw vectors are scanned even when they have an index. -/
def searchShardBatch (metric : VectorMetric) (queries : List (List F32)) (config : SearchConfig)
    (shard : LoadedShard) (i : Nat) (query : List F32) : List SearchResult :=
  match shard.rawVectors, shard.index with
  | some raw, _ =>
    match (if raw.isEmpty then none
      else eng.gpuSearchBatch queries raw metric (candidateCount config)) with
    | some batch => resultsIn shard ((batch[i]?).getD [])
    | none => resultsIn shard (eng.flatSearch raw query (candidateCount config) metric)
  | none, some index => resultsIn shard (index query (candidateCount config) config.efSearch)
  | none, none => []

def searchBatch (session : SearchSession) (queries : List (List F32)) (config : SearchConfig) :
    List (List SearchResult) :=
  queries.zipIdx.map fun q => eng.sortByDistance.select config.topK
    (session.shards.flatMap fun shard =>
      searchShardBatch eng session.metric queries config shard q.2 q.1)

end SearchSession

/-! Text search. -/

structure TextQuery where
  queryText : String
  textColumns : List String
  topK : Nat
  partitionFilter : Option String
  strictDeletes : Bool
  deriving DecidableEq, Repr

section Text

variable (site : Site) (eng : SearchEngine) (tx : TextForms)

/- The rows are read only to check them against the equality deletes. -/
def searchFts (schemaFields : List SchemaField) (filter : EqualityDeleteFilter)
    (entry : DataFileEntry) (file : DataFile) (hits : List (Nat × F32)) :
    Except AilakeError (List SearchResult) :=
  if hits.isEmpty then .ok []
  else do
    let pair ← readFilled eng schemaFields file
    .ok ((hits.filter fun hit => hit.1 < pair.1.numRows &&
      !filter.shouldDeleteRow tx pair.1 hit.1 entry.sequenceNumber).map fun hit =>
        ⟨hit.1, hit.2.neg, entry.path⟩)

def bruteForceRow (q : TextQuery) (stats : Option Object) (filter : EqualityDeleteFilter)
    (entry : DataFileEntry) (batch : RecordBatch) (i : Nat) : Option SearchResult :=
  if filter.shouldDeleteRow tx batch i entry.sequenceNumber then none
  else
    let text := rowText batch i q.textColumns
    if text = "" then none
    else
      let score := eng.bm25 stats q.queryText text
      if score.isPositive then some ⟨i, score.neg, entry.path⟩ else none

/- The embedded full-text index answers when there is one that opens. -/
def searchTextFile (q : TextQuery) (schemaFields : List SchemaField) (stats : Option Object)
    (filter : EqualityDeleteFilter) (entry : DataFileEntry) (file : DataFile) :
    Except AilakeError (List SearchResult) :=
  match (if file.fts then eng.fts file else none) with
  | some index => searchFts eng tx schemaFields filter entry file (index q.queryText (q.topK * 3))
  | none => do
    let pair ← readFilled eng schemaFields file
    .ok ((List.range pair.1.numRows).filterMap (bruteForceRow eng tx q stats filter entry pair.1))

def searchTextFiles (q : TextQuery) (schemaFields : List SchemaField) (stats : Option Object)
    (filter : EqualityDeleteFilter) : List DataFileEntry → Program (List SearchResult)
  | [] => pure []
  | entry :: rest => do
    let file ← getDataFile site entry.path
    let results ← Prog.ofExcept (searchTextFile eng tx q schemaFields stats filter entry file)
    let more ← searchTextFiles q schemaFields stats filter rest
    pure (results ++ more)

def checkTextColumns (columns : List String) : Except AilakeError Unit :=
  if columns.isEmpty then
    .error (.invalidArgument "search_text requires at least one text column")
  else .ok ()

def searchTextWithOptions (q : TextQuery) : Program (List SearchResult) := do
  Prog.ofExcept (checkTextColumns q.textColumns)
  Prog.ofExcept (checkTopK q.topK)
  let allFiles ← listFiles site none
  let tableMeta ← loadTable site
  let stats ← loadBm25Stats site tableMeta
  let filter ← loadEqualityDeleteFilter site tx q.strictDeletes
  let results ← searchTextFiles site eng tx q tableMeta.schemaFields stats filter
    (allFiles.filter (inPartition q.partitionFilter))
  pure ((Ranking.sorted (fun r => r.distance.totalOrder) results).take q.topK)

end Text
end AiLake
