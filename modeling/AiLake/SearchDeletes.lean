import AiLake.Search
import AiLake.TableHistory

/-! Which searches keep to the rows that the deletion vectors and the equality deletes of the
snapshot leave. -/
namespace AiLake

open StoreProgram List Prog

namespace Content

variable (tx : TextForms) (casts : FloatCasts) (schemaFields : List SchemaField)

/-- An equality delete takes row `i` of the file, seen with the columns of the table's schema. -/
def takesRow (c : Content) (f : LiveFile) (i : Nat) : Bool :=
  match SchemaFiller.fill casts f.file.batch schemaFields with
  | .ok b => (c.filter tx).shouldDeleteRow tx b i f.entry.sequenceNumber
  | .error _ => false

/-- A deletion vector or an equality delete masks the row at position `i` of the file at `path`. -/
def MaskedAt (c : Content) (path : String) (i : Nat) : Prop :=
  ∃ f ∈ c.files, f.entry.path = path ∧
    (f.bitmap.hides i = true ∨ c.takesRow tx casts schemaFields f i = true)

def Masked (c : Content) (r : SearchResult) : Prop :=
  c.MaskedAt tx casts schemaFields r.filePath r.rowId

instance (c : Content) (r : SearchResult) : Decidable (c.Masked tx casts schemaFields r) :=
  inferInstanceAs (Decidable (∃ f ∈ c.files, f.entry.path = r.filePath ∧
    (f.bitmap.hides r.rowId = true ∨ c.takesRow tx casts schemaFields f r.rowId = true)))

variable {tx casts schemaFields}

theorem takesRow_of_fill {c : Content} {f : LiveFile} {b : RecordBatch}
    (h : SchemaFiller.fill casts f.file.batch schemaFields = .ok b) (i : Nat) :
    c.takesRow tx casts schemaFields f i =
      (c.filter tx).shouldDeleteRow tx b i f.entry.sequenceNumber := by
  rw [takesRow,h]

theorem takesRow_of_filter_eq_nil {c : Content} (h : c.filter tx = []) (f : LiveFile) (i : Nat) :
    c.takesRow tx casts schemaFields f i = false := by
  unfold takesRow
  split
  · rw [h,EqualityDeleteFilter.shouldDeleteRow]
    split <;> rfl
  · rfl

end Content

section Loading

variable {site : Site} {tx : TextForms} {m : IcebergMetadata} {views : List View} {c : Content}
  {w w' : Store}

theorem TableOf.run_listEqualityDeletes (h : TableOf site w m views c) :
    (listEqualityDeletes site none).run w = (.ok (c.deletes.map (·.entry)), w) := by
  rw [(run_list_current h.reliable h.stored).2,h.holds.deletes]

theorem run_fromFiles (hr : w.Reliable) {ds : List LiveDelete}
    (h : ∀ d ∈ ds, w.objects (site.locate d.entry.path) = some (.equalityDelete d.payload)) :
    (EqualityDeleteFilter.fromFiles site tx (ds.map (·.entry))).run w =
      (.ok (.ofFiles tx (ds.map fun d => (d.entry.sequenceNumber, d.payload))), w) := by
  induction ds with
  | nil => rfl
  | cons d rest ih =>
    have hd := run_getObject_reliable hr (h d mem_cons_self)
    have hrest := ih fun d' hd' => h d' (mem_cons_of_mem _ hd')
    simp only [map_cons,EqualityDeleteFilter.fromFiles,run_bind,hd,hrest,
      run_pure]
    rfl

theorem TableOf.run_loadEqualityDeleteFilter (h : TableOf site w m views c) (strict : Bool) :
    (loadEqualityDeleteFilter site tx strict).run w = (.ok (c.filter tx), w) := by
  simp only [loadEqualityDeleteFilter,run_bind,run_attempt,h.run_listEqualityDeletes,
    run_fromFiles h.reliable h.holds.payload,run_pure,Content.filter]

theorem run_loadBitmap (hr : w.Reliable) {f : LiveFile} (hf : f.Stored site w.objects)
    (strict : Bool) : ∃ bitmap : Option Bitmap,
      (loadBitmap site strict f.entry.deletionVector).run w = (.ok bitmap, w) ∧
        ∀ i, bitmap.any (·.hides i) = f.bitmap.hides i := by
  have hv := hf.vector
  cases hdv : f.entry.deletionVector with
  | none =>
    rw [hdv] at hv
    have hb : f.bitmap = ∅ := (Option.some.inj hv).symm
    exact ⟨none, rfl, fun i => by simp [hb,hides_empty]⟩
  | some dv =>
    rw [hdv] at hv
    refine ⟨some f.bitmap, ?_, fun i => rfl⟩
    simp only [loadBitmap,run_bind,run_attempt,run_loadDeletionVector hr hv,
      run_pure]

theorem TableOf.maskedAt_iff (h : TableOf site w m views c) {casts : FloatCasts}
    {schemaFields : List SchemaField} {f : LiveFile} (hf : f ∈ c.files) (i : Nat) :
    c.MaskedAt tx casts schemaFields f.entry.path i ↔
      f.bitmap.hides i = true ∨ c.takesRow tx casts schemaFields f i = true := by
  constructor
  · intro hm
    obtain ⟨g,hg,hpath,hmask⟩ := hm
    have hlocate : site.locate g.entry.path = site.locate f.entry.path := by rw [hpath]
    rw [inj_on_of_nodup_map h.holds.apart hg hf hlocate] at hmask
    exact hmask
  · intro hmask
    exact ⟨f,hf,rfl,hmask⟩

end Loading

/-! Vector search. -/

/-- Every row that the outcome names satisfies `P`. -/
structure FileSearchOutcome.Only (outcome : FileSearchOutcome) (P : String → Nat → Prop) : Prop where
  results : ∀ r ∈ outcome.results, P r.filePath r.rowId
  candidates : ∀ r ∈ outcome.candidates, P r.filePath r.rowId

theorem FileSearchOutcome.only_nil (P : String → Nat → Prop) :
    (⟨[], []⟩ : FileSearchOutcome).Only P := ⟨by simp, by simp⟩

theorem only_pushHits {P : String → Nat → Prop} {entry : DataFileEntry} {hits : List (Nat × F32)}
    (h : ∀ hit ∈ hits, P entry.path hit.1) (config : SearchConfig) (batch : Option RecordBatch) :
    (pushHits config entry batch hits).Only P := by
  unfold pushHits
  split
  · refine ⟨by simp, fun r hr => ?_⟩
    obtain ⟨hit,hhit,rfl⟩ := mem_map.1 hr
    exact h hit hhit
  · refine ⟨fun r hr => ?_, by simp⟩
    obtain ⟨hit,hhit,rfl⟩ := mem_map.1 hr
    exact h hit hhit

section Vector

variable {site : Site} {eng : SearchEngine} {tx : TextForms} {m : IcebergMetadata}
  {views : List View} {c : Content} {w w' : Store} {query : List F32} {candidateK : Nat}
  {metric : VectorMetric} {tableMeta : TableMetadata} {config : SearchConfig}
  {vectorColumn : String} {f : LiveFile} {outcome : FileSearchOutcome}

theorem fill_of_readFilled {schemaFields : List SchemaField} {file : DataFile}
    {pair : RecordBatch × List (List F32)} (h : readFilled eng schemaFields file = .ok pair) :
    SchemaFiller.fill eng.casts file.batch schemaFields = .ok pair.1 := by
  obtain ⟨raw,hraw,h⟩ := bind_eq_ok.1 h
  rw [eq_of_readParquet hraw] at h
  cases hfill : SchemaFiller.fill eng.casts file.batch schemaFields with
  | error e => simp [hfill,Except.map] at h
  | ok b =>
    simp only [hfill,Except.map,Except.ok.injEq] at h
    rw [← h]

theorem TableOf.not_maskedAt_of_not_skips (h : TableOf site w m views c)
    {schemaFields : List SchemaField} (hf : f ∈ c.files) {bitmap : Option Bitmap}
    (hb : ∀ i, bitmap.any (·.hides i) = f.bitmap.hides i) {batch : Option RecordBatch}
    (hbatch : c.filter tx = [] ∨ ∃ b, batch = some b ∧
      SchemaFiller.fill eng.casts f.file.batch schemaFields = .ok b)
    {matching : Option (Finset Nat)} {i : Nat}
    (hi : skips tx bitmap (c.filter tx) batch matching f.entry i = false) :
    ¬c.MaskedAt tx eng.casts schemaFields f.entry.path i := by
  rw [h.maskedAt_iff hf]
  simp only [skips,Bool.or_eq_false_iff,hb i] at hi
  have htakes : c.takesRow tx eng.casts schemaFields f i = false := by
    rcases hbatch with hnil | ⟨b,rfl,hfill⟩
    · exact Content.takesRow_of_filter_eq_nil hnil f i
    · rw [Content.takesRow_of_fill hfill]
      exact hi.1.2
  simp [hi.1.1,htakes]

theorem filter_eq_nil_or_filled {schemaFields : List SchemaField} {filter : EqualityDeleteFilter}
    {file : DataFile} {data : Option (RecordBatch × List (List F32))}
    (h : parquetData eng schemaFields config filter file = .ok data) :
    filter = [] ∨ ∃ b, data.map Prod.fst = some b ∧
      SchemaFiller.fill eng.casts file.batch schemaFields = .ok b := by
  by_cases hnil : filter = []
  · exact .inl hnil
  · have hneed : ¬filter.isEmpty = true := by simpa using hnil
    rw [parquetData,if_pos (.inr (.inr (.inr hneed)))] at h
    cases hread : readFilled eng schemaFields file with
    | error e => simp [hread,Except.map] at h
    | ok pair =>
      simp only [hread,Except.map,Except.ok.injEq] at h
      exact .inr ⟨pair.1, by rw [← h]; rfl, fill_of_readFilled hread⟩

theorem TableOf.only_of_searchFile (h : TableOf site w m views c) (hf : f ∈ c.files)
    {bitmap : Option Bitmap} (hb : ∀ i, bitmap.any (·.hides i) = f.bitmap.hides i)
    (hrun : searchFile eng tx query candidateK metric tableMeta config vectorColumn (c.filter tx)
      bitmap f.entry f.file = .ok outcome) :
    outcome.Only fun path i => ¬c.MaskedAt tx eng.casts tableMeta.schemaFields path i := by
  obtain ⟨matching,-,hrun⟩ := bind_eq_ok.1 hrun
  split at hrun
  · cases hrun
    exact FileSearchOutcome.only_nil _
  · split at hrun
    · -- The exact scan reads the rows in any case.
      obtain ⟨pair,hpair,hrun⟩ := bind_eq_ok.1 hrun
      cases hrun
      refine only_pushHits (fun hit hhit => ?_) _ _
      have hskips := (mem_filter.1 hhit).2
      exact h.not_maskedAt_of_not_skips hf hb (.inr ⟨_, rfl, fill_of_readFilled hpair⟩)
        (by simpa using hskips)
    · obtain ⟨index,-,hrun⟩ := bind_eq_ok.1 hrun
      obtain ⟨data,hdata,hrun⟩ := bind_eq_ok.1 hrun
      have hbatch := filter_eq_nil_or_filled hdata
      cases hrun
      refine only_pushHits (fun hit hhit => ?_) _ _
      obtain ⟨hit',hhit',rfl⟩ := mem_map.1 hhit
      have hskips := (mem_filter.1 hhit').2
      have hmasked := h.not_maskedAt_of_not_skips hf hb hbatch (by simpa using hskips)
      split
      · exact hmasked
      · exact hmasked

variable (eng tableMeta config vectorColumn) in
theorem run_fastPath (hr : w.Reliable) (hf : f.Stored site w.objects)
    (filter : EqualityDeleteFilter) : ∃ index,
      (fastPath site eng tableMeta config vectorColumn filter f.entry).run w = (.ok index, w) ∧
        (index.isSome = true → filter = []) := by
  unfold fastPath
  split
  · rename_i heligible
    have hnil : filter = [] := by
      simp only [fastPathEligible,decide_eq_true_eq] at heligible
      exact isEmpty_iff.1 heligible.2.2.2.2.1
    refine (exists_congr fun index => and_iff_left fun _ => hnil).2 ?_
    simp only [loadPrimaryIndex,run_bind,run_attempt,run_getDataFile hr hf.data]
    cases f.file.index with
    | none => exact ⟨none,rfl⟩
    | some _ =>
      simp only [run_ofExcept]
      cases eng.loadIndex f.file vectorColumn with
      | error e => exact ⟨none,rfl⟩
      | ok index => exact ⟨some index, rfl⟩
  · exact ⟨none,rfl,nofun⟩

theorem TableOf.only_of_searchOneFile (h : TableOf site w m views c) (hf : f ∈ c.files)
    (hrun : (searchOneFile site eng tx query candidateK metric tableMeta config vectorColumn
      (c.filter tx) f.entry).run w = (.ok outcome, w')) :
    (outcome.Only fun path i => ¬c.MaskedAt tx eng.casts tableMeta.schemaFields path i) ∧ w' = w := by
  have hstored := h.holds.live f hf
  obtain ⟨bitmap,hbitmap,hb⟩ := run_loadBitmap h.reliable hstored config.strictDeletes
  obtain ⟨index,hindex,hnil⟩ := run_fastPath eng tableMeta config vectorColumn h.reliable
    hstored (c.filter tx)
  simp only [searchOneFile,run_bind,hbitmap,hindex] at hrun
  cases index with
  | some index =>
    cases hrun
    refine ⟨⟨fun r hr => ?_, by simp⟩, rfl⟩
    obtain ⟨hit,hhit,rfl⟩ := mem_map.1 hr
    have hhides := (mem_filter.1 hhit).2
    rw [h.maskedAt_iff hf,Content.takesRow_of_filter_eq_nil (hnil rfl),← hb]
    simpa using hhides
  | none =>
    simp only [run_bind,run_getDataFile h.reliable hstored.data,run_ofExcept,
      Prod.mk.injEq] at hrun
    exact ⟨h.only_of_searchFile hf hb hrun.1, hrun.2.symm⟩

theorem TableOf.only_of_searchFiles (h : TableOf site w m views c) {fs : List LiveFile}
    (hfs : ∀ f ∈ fs, f ∈ c.files) {found : FileSearchOutcome}
    (hfound : found.Only fun path i => ¬c.MaskedAt tx eng.casts tableMeta.schemaFields path i)
    (hrun : (searchFiles site eng tx query metric tableMeta config vectorColumn (c.filter tx) found
      (fs.map (·.entry))).run w = (.ok outcome, w')) :
    (outcome.Only fun path i => ¬c.MaskedAt tx eng.casts tableMeta.schemaFields path i) ∧ w' = w := by
  induction fs generalizing found with
  | nil =>
    cases hrun
    exact ⟨hfound,rfl⟩
  | cons f rest ih =>
    obtain ⟨one,w₁,hone,hrest⟩ := run_bind_ok.1 hrun
    obtain ⟨honly,rfl⟩ := h.only_of_searchOneFile (hfs f mem_cons_self) hone
    refine ih (fun g hg => hfs g (mem_cons_of_mem _ hg)) ⟨fun r hr => ?_, fun r hr => ?_⟩ hrest
    · have hmem : r ∈ found.results ++ one.results := by
        split at hr
        · exact eng.selectSearchTopK.mem_of_select _ _ r hr
        · exact hr
      cases mem_append.1 hmem with
      | inl hold => exact hfound.results r hold
      | inr hnew => exact honly.results r hnew
    · cases mem_append.1 hr with
      | inl hold => exact hfound.candidates r hold
      | inr hnew => exact honly.candidates r hnew

theorem run_loadBm25Stats (hr : w.Reliable) (tableMeta : TableMetadata) :
    (loadBm25Stats site tableMeta).run w =
      (.ok (w.objects (site.locate (bm25StatsPath tableMeta))), w) := by
  simp only [loadBm25Stats,run_bind,run_head,World.tick_of_reliable hr,hr 0]
  cases ho : w.objects (site.locate (bm25StatsPath tableMeta)) with
  | none => rfl
  | some o =>
    have hget := run_get_of_reliable (E := AilakeError) hr
      (site.locate (bm25StatsPath tableMeta))
    rw [ho] at hget
    exact hget

theorem run_hybridStats (hr : w.Reliable) (tableMeta : TableMetadata)
    (hybrid : Option HybridConfig) :
    ∃ stats, (hybridStats site tableMeta hybrid).run w = (.ok stats, w) := by
  unfold hybridStats
  split
  · exact ⟨_,rfl⟩
  · split
    · exact ⟨_,rfl⟩
    · exact ⟨_, run_loadBm25Stats hr tableMeta⟩

theorem run_loadBloomMap (hr : w.Reliable) (tableMeta : TableMetadata) :
    ∃ blooms, (loadBloomMap site eng tableMeta).run w = (.ok blooms, w) := by
  unfold loadBloomMap
  split
  · exact ⟨_,rfl⟩
  · simp only [run_bind,run_get_of_reliable hr]
    split <;> exact ⟨_,rfl⟩

theorem run_bloomPrune (hr : w.Reliable) (tableMeta : TableMetadata) (hybrid : Option HybridConfig)
    (files : List DataFileEntry) : ∃ keeps : DataFileEntry → Bool,
      (bloomPrune site eng tableMeta hybrid files).run w = (.ok (files.filter keeps), w) := by
  cases hybrid with
  | none => exact ⟨fun _ => true, by simp [bloomPrune]⟩
  | some h =>
    obtain ⟨blooms,hblooms⟩ : ∃ blooms, (loadBloomMap site eng tableMeta).run w = (.ok blooms, w) :=
      run_loadBloomMap hr tableMeta
    exact ⟨bloomKeeps eng h.queryText blooms, by
      simp only [bloomPrune,run_bind,hblooms,run_pure]⟩

theorem holds_of_mem_fuse {P : String → Nat → Prop} {h : HybridConfig} {stats : Option Object}
    {candidates : List Candidate} (hall : ∀ r ∈ candidates, P r.filePath r.rowId)
    {r : SearchResult} (hr : r ∈ fuse eng h stats candidates) : P r.filePath r.rowId := by
  rw [fuse,← map_uncurry_zip_eq_zipWith] at hr
  obtain ⟨⟨p,score⟩,hp,rfl⟩ := mem_map.1 hr
  have hmem := Ranking.mem_sorted.1 (of_mem_zip hp).1
  obtain ⟨candidate,hcandidate,rfl⟩ := mem_map.1 hmem
  exact hall candidate hcandidate

theorem TableOf.not_masked_of_search (h : TableOf site w m views c) {results : List SearchResult}
    (hrun : (search site eng tx query config vectorColumn).run w = (.ok results, w')) :
    ∀ r ∈ results, ¬c.Masked tx eng.casts m.schemaFields r := by
  obtain ⟨_,w₁,hcheck,h₁⟩ := run_bind_ok.1 hrun
  rw [run_ofExcept] at hcheck
  obtain ⟨-,rfl⟩ := Prod.mk.inj hcheck
  obtain ⟨allFiles,w₂,hfiles,h₂⟩ := run_bind_ok.1 h₁
  rw [h.run_listFiles] at hfiles
  cases hfiles
  obtain ⟨tableMeta,w₃,hmeta,h₃⟩ := run_bind_ok.1 h₂
  rw [h.run_loadTable] at hmeta
  cases hmeta
  obtain ⟨_,w₄,hdim,h₄⟩ := run_bind_ok.1 h₃
  rw [run_ofExcept] at hdim
  obtain ⟨-,rfl⟩ := Prod.mk.inj hdim
  obtain ⟨files,w₅,hprune,h₅⟩ := run_bind_ok.1 h₄
  obtain ⟨keeps,hkeeps⟩ := run_bloomPrune h.reliable m.toTableMetadata config.hybrid _
  rw [hkeeps] at hprune
  cases hprune
  obtain ⟨filter,w₆,hfilter,h₆⟩ := run_bind_ok.1 h₅
  rw [h.run_loadEqualityDeleteFilter] at hfilter
  cases hfilter
  obtain ⟨stats,w₇,hstats,h₇⟩ := run_bind_ok.1 h₆
  obtain ⟨stats',hstats'⟩ := run_hybridStats h.reliable m.toTableMetadata config.hybrid
  rw [hstats'] at hstats
  cases hstats
  obtain ⟨found,w₈,hsearch,hdone⟩ := run_bind_ok.1 h₇
  simp only [filter_map,filter_filter] at hsearch
  obtain ⟨honly,rfl⟩ := h.only_of_searchFiles (fun f hf => mem_of_mem_filter hf)
    (FileSearchOutcome.only_nil _) hsearch
  cases hdone
  intro r hr
  cases mem_append.1 (eng.selectSearchTopK.mem_of_select _ _ r hr) with
  | inl hresult => exact honly.results r hresult
  | inr hfused =>
    cases hhybrid : config.hybrid with
    | none => simp [hhybrid] at hfused
    | some hy =>
      rw [hhybrid] at hfused
      exact holds_of_mem_fuse
        (P := fun path i => ¬c.MaskedAt tx eng.casts m.schemaFields path i) honly.candidates hfused

theorem TableOf.not_maskedAt_of_load (h : TableOf site w m views c) {loadRaw : Bool}
    {session : SearchSession}
    (hrun : (SearchSession.load site eng vectorColumn loadRaw).run w = (.ok session, w'))
    (casts : FloatCasts) (schemaFields : List SchemaField) (path : String) (i : Nat) :
    ¬c.MaskedAt tx casts schemaFields path i := by
  obtain ⟨allFiles,w₁,hfiles,h₁⟩ := run_bind_ok.1 hrun
  rw [h.run_listFiles] at hfiles
  cases hfiles
  obtain ⟨deletes,w₂,hdeletes,h₂⟩ := run_bind_ok.1 h₁
  rw [h.run_listEqualityDeletes] at hdeletes
  cases hdeletes
  obtain ⟨_,w₃,hfree,-⟩ := run_bind_ok.1 h₂
  rw [run_ofExcept] at hfree
  have hok := (Prod.mk.inj hfree).1
  unfold SearchSession.ensureSnapshotIsDeleteFree at hok
  split at hok
  · cases hok
  · rename_i hvectors
    split at hok
    · cases hok
    · rename_i hnone
      intro hmasked
      obtain ⟨f,hf,-,hmask⟩ := hmasked
      have hdv : f.entry.deletionVector = none := by
        have hany := mt any_eq_true.2 hvectors
        have hf' : f.entry ∈ c.files.map (·.entry) := mem_map_of_mem hf
        exact Option.not_isSome_iff_eq_none.1 fun hsome => hany ⟨f.entry,hf',hsome⟩
      have hbitmap : f.bitmap = ∅ := by
        have hv := (h.holds.live f hf).vector
        rw [hdv] at hv
        exact (Option.some.inj hv).symm
      have hfilter : c.filter tx = [] := by
        have hdel : c.deletes = [] := by simpa using hnone
        simp [Content.filter,hdel,EqualityDeleteFilter.ofFiles]
      rw [hbitmap,hides_empty,Content.takesRow_of_filter_eq_nil hfilter] at hmask
      simp at hmask

end Vector

/-! Text search. -/

section Text

variable (eng : SearchEngine) (tx : TextForms) (schemaFields : List SchemaField)
  (stats : Option Object) (q : TextQuery) {results : List SearchResult}

/-- The score of a row whose text is not empty, if it is positive. -/
def scoreRow (batch : RecordBatch) (i : Nat) : Option (Nat × F32) :=
  let text := rowText batch i q.textColumns
  let score := eng.bm25 stats q.queryText text
  if text ≠ "" ∧ score.isPositive = true then some (i, score) else none

/-- The rows of a batch that the query finds, with their scores: the hits of the full-text index, or
the rows whose text scores. -/
def DataFile.found (file : DataFile) (batch : RecordBatch) : List (Nat × F32) :=
  match (if file.fts then eng.fts file else none) with
  | some index => (index q.queryText (q.topK * 3)).filter fun hit => hit.1 < batch.numRows
  | none => (List.range batch.numRows).filterMap (scoreRow eng stats q batch)

/-- The matches of the query in a file: what it finds, less what the equality deletes take. -/
def Content.matchesIn (c : Content) (f : LiveFile) : List SearchResult :=
  match SchemaFiller.fill eng.casts f.file.batch schemaFields with
  | .ok batch =>
    ((f.file.found eng stats q batch).filter fun hit =>
      !c.takesRow tx eng.casts schemaFields f hit.1).map fun hit =>
        ⟨hit.1, hit.2.neg, f.entry.path⟩
  | .error _ => []

def Content.textMatches (c : Content) : List SearchResult :=
  (c.files.filter fun f => AiLake.inPartition q.partitionFilter f.entry).flatMap
    (c.matchesIn eng tx schemaFields stats q)

def Content.Hidden (c : Content) (r : SearchResult) : Prop :=
  ∃ f ∈ c.files, f.entry.path = r.filePath ∧ f.bitmap.hides r.rowId = true

/-- Every match that a deletion vector hides has `top_k` better matches. -/
def HiddenOutranked (c : Content) : Prop :=
  ∀ before r after, c.textMatches eng tx schemaFields stats q = before ++ r :: after →
    c.Hidden r → q.topK ≤ Ranking.rank (fun r => r.distance.totalOrder) before r after

variable {eng tx schemaFields stats q} {site : Site} {m : IcebergMetadata} {views : List View}
  {c : Content} {w w' : Store}

theorem matchesIn_of_searchFts {f : LiveFile} {index : String → Nat → List (Nat × F32)}
    (hindex : (if f.file.fts then eng.fts f.file else none) = some index)
    (h : searchFts eng tx schemaFields (c.filter tx) f.entry f.file
      (index q.queryText (q.topK * 3)) = .ok results) :
    results = c.matchesIn eng tx schemaFields stats q f := by
  unfold searchFts at h
  split at h
  · rename_i hnil
    cases h
    unfold Content.matchesIn DataFile.found
    simp only [hindex,isEmpty_iff.1 hnil,filter_nil,map_nil]
    split <;> rfl
  · obtain ⟨pair,hpair,hdone⟩ := bind_eq_ok.1 h
    have hfill := fill_of_readFilled hpair
    cases hdone
    simp only [Content.matchesIn,DataFile.found,hindex,hfill,filter_filter,
      Content.takesRow_of_fill hfill,Bool.and_comm]

theorem bruteForceRow_eq (entry : DataFileEntry) (filter : EqualityDeleteFilter)
    (batch : RecordBatch) (i : Nat) : bruteForceRow eng tx q stats filter entry batch i =
      ((scoreRow eng stats q batch i).filter fun hit =>
        !filter.shouldDeleteRow tx batch hit.1 entry.sequenceNumber).map
          fun hit => ⟨hit.1, hit.2.neg, entry.path⟩ := by
  unfold bruteForceRow scoreRow
  by_cases htext : rowText batch i q.textColumns = ""
  · simp [htext]
  · by_cases hscore : (eng.bm25 stats q.queryText (rowText batch i q.textColumns)).isPositive = true
    · cases hdelete : filter.shouldDeleteRow tx batch i entry.sequenceNumber <;>
        simp [htext,hscore,hdelete,Option.filter]
    · simp [htext,hscore]

theorem matchesIn_of_searchTextFile {f : LiveFile}
    (h : searchTextFile eng tx q schemaFields stats (c.filter tx) f.entry f.file = .ok results) :
    results = c.matchesIn eng tx schemaFields stats q f := by
  unfold searchTextFile at h
  split at h
  · rename_i index hindex
    exact matchesIn_of_searchFts hindex h
  · rename_i hindex
    obtain ⟨pair,hpair,hdone⟩ := bind_eq_ok.1 h
    have hfill := fill_of_readFilled hpair
    cases hdone
    simp only [Content.matchesIn,DataFile.found,hindex,hfill,filter_filterMap,
      map_filterMap,Content.takesRow_of_fill hfill]
    exact filterMap_congr fun i _ => bruteForceRow_eq _ _ _ i

theorem textMatches_of_searchTextFiles (hr : w.Reliable) {fs : List LiveFile}
    (hfs : ∀ f ∈ fs, f.Stored site w.objects)
    (h : (searchTextFiles site eng tx q schemaFields stats (c.filter tx)
      (fs.map (·.entry))).run w = (.ok results, w')) :
    results = fs.flatMap (c.matchesIn eng tx schemaFields stats q) := by
  induction fs generalizing results w' with
  | nil =>
    cases h
    rfl
  | cons f rest ih =>
    obtain ⟨file,w₁,hfile,h₁⟩ := run_bind_ok.1 h
    rw [run_getDataFile hr (hfs f mem_cons_self).data] at hfile
    cases hfile
    obtain ⟨found,w₂,hfound,h₂⟩ := run_bind_ok.1 h₁
    rw [run_ofExcept] at hfound
    obtain ⟨hok,rfl⟩ := Prod.mk.inj hfound
    obtain ⟨more,w₃,hmore,hdone⟩ := run_bind_ok.1 h₂
    cases hdone
    rw [ih (fun g hg => hfs g (mem_cons_of_mem _ hg)) hmore,matchesIn_of_searchTextFile hok,
      flatMap_cons]

theorem TableOf.masked_iff_hidden (h : TableOf site w m views c) {r : SearchResult}
    (hr : r ∈ c.textMatches eng tx schemaFields stats q) :
    c.Masked tx eng.casts schemaFields r ↔ c.Hidden r := by
  obtain ⟨f,hf,hr⟩ := mem_flatMap.1 hr
  have hlive := mem_of_mem_filter hf
  have hmatch : r.filePath = f.entry.path ∧
      c.takesRow tx eng.casts schemaFields f r.rowId = false := by
    unfold Content.matchesIn at hr
    split at hr
    · obtain ⟨hit,hhit,rfl⟩ := mem_map.1 hr
      exact ⟨rfl, by simpa using (mem_filter.1 hhit).2⟩
    · cases hr
  constructor
  · intro hmasked
    rw [Content.Masked,hmatch.1,h.maskedAt_iff hlive,hmatch.2] at hmasked
    cases hmasked with
    | inl hhides => exact ⟨f,hlive,hmatch.1.symm,hhides⟩
    | inr htakes => cases htakes
  · intro hhidden
    obtain ⟨g,hg,hpath,hhides⟩ := hhidden
    exact ⟨g, hg, hpath, .inl hhides⟩

/-- A text search shows no masked row exactly when the hidden matches are outranked. -/
theorem TableOf.searchText_unmasked_iff (h : TableOf site w m views c)
    (hrun : (searchTextWithOptions site eng tx q).run w = (.ok results, w')) :
    (∀ r ∈ results, ¬c.Masked tx eng.casts m.schemaFields r) ↔
      HiddenOutranked eng tx m.schemaFields
        (w.objects (site.locate (bm25StatsPath m.toTableMetadata))) q c := by
  obtain ⟨_,w₁,hcolumns,h₁⟩ := run_bind_ok.1 hrun
  rw [run_ofExcept] at hcolumns
  obtain ⟨-,rfl⟩ := Prod.mk.inj hcolumns
  obtain ⟨_,w₂,htop,h₂⟩ := run_bind_ok.1 h₁
  rw [run_ofExcept] at htop
  obtain ⟨-,rfl⟩ := Prod.mk.inj htop
  obtain ⟨allFiles,w₃,hfiles,h₃⟩ := run_bind_ok.1 h₂
  rw [h.run_listFiles] at hfiles
  cases hfiles
  obtain ⟨tableMeta,w₄,hmeta,h₄⟩ := run_bind_ok.1 h₃
  rw [h.run_loadTable] at hmeta
  cases hmeta
  obtain ⟨stats,w₅,hstats,h₅⟩ := run_bind_ok.1 h₄
  rw [run_loadBm25Stats h.reliable] at hstats
  cases hstats
  obtain ⟨filter,w₆,hfilter,h₆⟩ := run_bind_ok.1 h₅
  rw [h.run_loadEqualityDeleteFilter] at hfilter
  cases hfilter
  obtain ⟨hits,w₇,hhits,hdone⟩ := run_bind_ok.1 h₆
  rw [filter_map] at hhits
  have hmatches := textMatches_of_searchTextFiles h.reliable
    (fun f hf => h.holds.live f (mem_of_mem_filter hf)) hhits
  cases hdone
  rw [Ranking.forall_mem_take_sorted]
  have heq : hits = c.textMatches eng tx m.schemaFields
      (w.objects (site.locate (bm25StatsPath m.toTableMetadata))) q := hmatches
  rw [heq]
  refine forall_congr' fun before => forall_congr' fun r => forall_congr' fun after => ?_
  refine forall_congr' fun hsplit => ?_
  have hr : r ∈ c.textMatches eng tx m.schemaFields
      (w.objects (site.locate (bm25StatsPath m.toTableMetadata))) q := by
    rw [hsplit]
    exact mem_append_right _ mem_cons_self
  rw [not_not,h.masked_iff_hidden hr]

end Text

/-! Two rows, the first of them deleted by position. -/

def demoEngine : SearchEngine where
  casts := ⟨fun _ => 0, fun _ => 0⟩
  exactDistance _ _ _ := 0
  keepsFile _ _ _ _ := true
  keepsShard _ _ _ _ := true
  loadIndex _ _ := .ok fun _ _ _ => [(0, 0)]
  quantizeToF16 index := index
  flatSearch _ _ _ _ := []
  gpuSearchBatch _ _ _ _ := none
  matchingRowIds _ _ := .ok ∅
  mayContain _ := none
  tokenize _ := []
  bm25 _ _ text := if text = "b" then 2 else 1
  fusedScores _ _ := []
  fts _ := none
  selectSearchTopK := ⟨List.take, fun _ _ _ h => mem_of_mem_take h⟩
  sortByDistance := ⟨List.take, fun _ _ _ h => mem_of_mem_take h⟩

def demoPair : TableOp := demoInsert "s" [demoBatch 7 "a", demoBatch 8 "b"] 1

def demoHide : TableOp := .deleteRows "data/part-s-00000.parquet" [0] 2

def demoHidden : Store := demoHide.apply (demoPair.apply (demoTable 3))

def demoTextQuery (topK : Nat) : TextQuery := ⟨"a", ["key"], topK, none, true⟩

def demoSearchText (topK : Nat) (w : Store) : Except AilakeError (List SearchResult) × Store :=
  (searchTextWithOptions demoSite demoEngine demoForms (demoTextQuery topK)).run w

theorem tableOf_demoHidden : ∃ m views c, TableOf demoSite demoHidden m views c := by
  have h₁ : TableStep demoSite demoFormat demoForms (demoTable 3) (demoPair, 0)
      (demoPair.apply (demoTable 3)) := by
    refine ⟨TableOp.run_apply (by decide), ⟨⟨by decide, by decide⟩, ?_, by decide⟩, fun h => nomatch h⟩
    intro p hp
    refine newData_of_ne ?_ ?_ <;> revert p <;> decide
  have h₂ : TableStep demoSite demoFormat demoForms (demoPair.apply (demoTable 3)) (demoHide, 0)
      demoHidden := by
    refine ⟨TableOp.run_apply (by decide), ⟨by decide, by decide⟩,
      fun _ c hc => Content.unmasked_of_no_deletes (isEmpty_iff.1 ?_)⟩
    revert c
    decide
  obtain ⟨m₁,views₁,c₁,ht₁⟩ := (h₁.shows (tableOf_demoTable 3)).1
  exact (h₂.shows ht₁).1

end AiLake
