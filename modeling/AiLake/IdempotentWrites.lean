import AiLake.TableHistory

/-! `write_batch_idempotent`: writers that are used one after another, each with its files pending
until it commits, and compactions in between. -/
namespace AiLake

open StoreProgram List Function Prog

structure IngestSession where
  writer : TableWriter
  partCounter : Nat
  capturedSchema : Option (List Field)
  pendingFiles : List DataFileEntry
  pendingBlooms : List (String × List UInt8)
  deriving DecidableEq, Repr

/-- One call of `write_batch_idempotent`. The answer of the BM25 update, which comes last, is an
input: an error, or the Bloom filter of the file. -/
structure KeyedWrite where
  batch : RecordBatch
  embeddings : List (List F32)
  key : String
  bm25 : Except AilakeError (Option (List UInt8))

def KeyedWrite.batchWrite (k : KeyedWrite) : BatchWrite := ⟨k.batch, k.embeddings, some k.key, false⟩

def KeyedWrite.ids (k : KeyedWrite) : List Nat := k.batch.rows.map (·.id)

namespace IngestSession

def new (writer : TableWriter) : IngestSession := ⟨writer, 0, none, [], []⟩

variable (site : Site) (fmt : FileFormat) (s : IngestSession)

def path : String := s.writer.partPath s.partCounter

def started (k : KeyedWrite) : IngestSession :=
  { s with
    capturedSchema := some (mergeSchema s.capturedSchema k.batch.schema)
    partCounter := s.partCounter + 1 }

def staged (k : KeyedWrite) (file : DataFile) : IngestSession :=
  { s.started k with
    pendingFiles := s.pendingFiles ++ [s.writer.entry fmt k.batchWrite s.path file] }

/- The entry is pending before the statistics are updated, and stays so when that fails. -/
def writeBatchWithId (k : KeyedWrite) : Program (Except AilakeError Unit × IngestSession) :=
  match validateEmbeddingDim s.writer.policy k.embeddings with
  | .error e => pure (.error e, s)
  | .ok _ =>
    match s.writer.dataFile fmt k.batchWrite with
    | .error e => pure (.error e, s.started k)
    | .ok file => do
      match ← (putObject site s.path (.dataFile file)).attempt with
      | .error e => pure (.error e, s.started k)
      | .ok _ =>
        match k.bm25 with
        | .error e => pure (.error e, s.staged fmt k file)
        | .ok none => pure (.ok (), s.staged fmt k file)
        | .ok (some bloom) => pure (.ok (), { s.staged fmt k file with
            pendingBlooms := s.pendingBlooms ++ [(s.path, bloom)] })

def alreadyWritten (key : String) (existing : List DataFileEntry) : Bool :=
  existing.any fun f => (f.batchIds fmt.jsonStrings).any fun id => id = key

def writeBatchIdempotent (k : KeyedWrite) : Program (Except AilakeError Unit × IngestSession) := do
  match ← (listFiles site none).attempt with
  | .error e => pure (.error e, s)
  | .ok existing =>
    if alreadyWritten fmt k.key existing then pure (.ok (), s)
    else s.writeBatchWithId site fmt k

def snapshot (snapshotId : SnapshotId) : NewSnapshot where
  snapshotId := snapshotId
  parentSnapshotId := s.writer.parentSnapshotId
  files := s.pendingFiles
  operation := .append
  icebergSchema := s.capturedSchema.map fun schema =>
    arrowSchemaToIcebergUpdate schema s.writer.policy.vectorColumn []
  extraProperties := (s.writer.fts.map (·.properties)).getD []
  bloomFilters := s.pendingBlooms
  equalityDeleteFiles := []

def commit (snapshotId : SnapshotId) (nowMs : Int) : Program SnapshotId :=
  if s.pendingFiles.isEmpty then do
    let current ← currentSnapshotOrNone site
    pure (current.getD 0)
  else commitSnapshot site (s.snapshot snapshotId) nowMs

end IngestSession

/-- `commit` uses the writer up, and `abandon` drops it; another one comes next. -/
inductive IngestCall where
  | write (k : KeyedWrite)
  | commit (snapshotId : SnapshotId) (next : TableWriter)
  | abandon (next : TableWriter)
  | compaction (mode : CompactionMode) (selection : FileSelection) (ex : CompactionExecutor)
      (outputPrefix : String) (ts : Nat) (snapshotId : SnapshotId)

namespace IngestCall

/-- A call is made, and whatever it answers, the session goes on. -/
def program (site : Site) (fmt : FileFormat) (s : IngestSession) (nowMs : Int) :
    IngestCall → Program IngestSession
  | .write k => do
    let answer ← s.writeBatchIdempotent site fmt k
    pure answer.2
  | .commit id next => do
    let _ ← (s.commit site id nowMs).attempt
    pure (.new next)
  | .abandon next => pure (.new next)
  | .compaction mode selection ex outputPrefix ts id => do
    let _ ← (compactionRun site fmt mode selection.pick ex outputPrefix ts id nowMs).attempt
    pure s

/-- The snapshot ids and the names of data files that a call brings are new. -/
def Fresh (site : Site) (s : IngestSession) (objects : String → Option Object) :
    IngestCall → Prop
  | .write _ => NewData site objects s.path
  | .commit id _ => FreshId site objects id
  | .abandon _ => True
  | .compaction _ _ _ outputPrefix ts id =>
    FreshId site objects id ∧ NewData site objects (outputPath outputPrefix ts)

/-- The key does not read as a JSON array of strings, and no pending file has it. -/
def Fits (fmt : FileFormat) (s : IngestSession) : IngestCall → Prop
  | .write k => fmt.jsonStrings k.key = none ∧ some k.key ∉ s.pendingFiles.map (·.batchId)
  | _ => True

def writes : IngestCall → List (String × List Nat)
  | .write k => [(k.key, k.ids)]
  | _ => []

end IngestCall

def writesOf (calls : List (IngestCall × Int)) : List (String × List Nat) :=
  calls.flatMap fun c => c.1.writes

structure IngestStep (site : Site) (fmt : FileFormat) (state : IngestSession × Store)
    (call : IngestCall × Int) (state' : IngestSession × Store) : Prop where
  run : (call.1.program site fmt state.1 call.2).run state.2 = (.ok state'.1, state'.2)
  fresh : call.1.Fresh site state.1 state.2.objects
  fits : call.1.Fits fmt state.1

/-- The JSON array that `merge_batch_ids` writes. -/
def encodedKeys (ids : List String) : String := "[" ++ ",".intercalate (ids.map jsonString) ++ "]"

def ReadsArrays (fmt : FileFormat) (keys : List String) : Prop :=
  ∀ ids : List String, ids ≠ [] → ids.Nodup → ids ⊆ keys →
    fmt.jsonStrings (encodedKeys ids) = some ids

theorem ReadsArrays.mono {fmt : FileFormat} {keys keys' : List String}
    (h : ReadsArrays fmt keys') (hsub : keys ⊆ keys') : ReadsArrays fmt keys :=
  fun ids hne hn hids => h ids hne hn fun _ hk => hsub (hids hk)

section Keys

variable {fmt : FileFormat} {site : Site} {m : IcebergMetadata}

/-- What was written under which key, for the rows of one file. -/
structure KeyedBy (fmt : FileFormat) (f : LiveFile) (parts : List (String × List Nat)) : Prop where
  ids : (f.kept.map (·.id)).Perm (parts.flatMap Prod.snd)
  keys : ∀ k, k ∈ f.entry.batchIds fmt.jsonStrings ↔ k ∈ parts.map Prod.fst

theorem Committed.batchId {e e' : DataFileEntry} (h : Committed site m e e') :
    e'.batchId = e.batchId := by
  obtain ⟨r,rfl⟩ := h
  rfl

theorem batchIds_congr {e e' : DataFileEntry} (h : e'.batchId = e.batchId)
    (decode : String → Option (List String)) : e'.batchIds decode = e.batchIds decode := by
  unfold DataFileEntry.batchIds
  rw [h]

theorem KeyedBy.committed {f f' : LiveFile} {parts : List (String × List Nat)}
    (h : KeyedBy fmt f parts) (hc : Committed site m f.entry f'.entry) (hfile : f'.file = f.file)
    (hbitmap : f'.bitmap = f.bitmap) : KeyedBy fmt f' parts where
  ids := by
    have hkept : f'.kept = f.kept := by
      unfold LiveFile.kept
      rw [hfile,hbitmap]
    rw [hkept]
    exact h.ids
  keys k := by
    rw [batchIds_congr hc.batchId]
    exact h.keys k

theorem kept_of_empty (entry : DataFileEntry) (file : DataFile) :
    LiveFile.kept ⟨entry, file, ∅⟩ = file.batch.rows := by
  have hkeep : (fun (i : Nat) (_ : Row) => !Bitmap.hides ∅ i) = fun _ _ => true := by
    funext i r
    rw [hides_empty]
    rfl
  unfold LiveFile.kept
  rw [hkeep,RecordBatch.rows_filterRows]
  simp

theorem keyedBy_written {writer : TableWriter} {k : KeyedWrite} {file : DataFile} (path : String)
    (hkey : fmt.jsonStrings k.key = none) (hfile : writer.dataFile fmt k.batchWrite = .ok file) :
    KeyedBy fmt ⟨writer.entry fmt k.batchWrite path file, file, ∅⟩ [(k.key, k.ids)] where
  ids := by
    have hbatch : file.batch = k.batch := (written_of_dataFile path hfile).batch
    rw [kept_of_empty,hbatch]
    simp [KeyedWrite.ids]
  keys key := by
    have hid : (writer.entry fmt k.batchWrite path file).batchId = some k.key := rfl
    simp [DataFileEntry.batchIds,hid,hkey]

theorem mem_batchIds_merged {sources : List DataFileEntry} {entry : DataFileEntry} {keys : List String}
    (hjson : ReadsArrays fmt keys) (hsub : sources.flatMap (·.batchIds fmt.jsonStrings) ⊆ keys)
    (hentry : CarriesKeys fmt sources entry) (k : String) :
    k ∈ entry.batchIds fmt.jsonStrings ↔ ∃ e ∈ sources, k ∈ e.batchIds fmt.jsonStrings := by
  have hmem : ∀ key, key ∈ (sources.flatMap (·.batchIds fmt.jsonStrings)).eraseDups ↔
      ∃ e ∈ sources, key ∈ e.batchIds fmt.jsonStrings := by
    intro key
    rw [mem_eraseDups,mem_flatMap]
  rw [← hmem,DataFileEntry.batchIds,hentry,mergeBatchIds]
  by_cases hnil : (sources.flatMap (·.batchIds fmt.jsonStrings)).eraseDups = []
  · simp [hnil]
  · have hread := hjson _ hnil (nodup_eraseDups _) (fun key hkey => hsub (mem_eraseDups.1 hkey))
    simp only [encodedKeys] at hread
    simp [hnil,hread]

end Keys

section Ledger

variable {site : Site} {fmt : FileFormat} {m : IcebergMetadata} {views : List View} {c : Content}
  {s s' : IngestSession} {w w' : Store} {new : List LiveFile}
  {parts : String → List (String × List Nat)} {writes : List (String × List Nat)}

/-- A file that waits for its commit, with its object in place. -/
structure Pending (site : Site) (fmt : FileFormat) (objects : String → Option Object)
    (f : LiveFile) : Prop where
  data : objects (site.locate f.entry.path) = some (.dataFile f.file)
  deletionVector : f.entry.deletionVector = none
  bitmap : f.bitmap = ∅
  plain : ∀ k ∈ f.entry.batchIds fmt.jsonStrings, f.entry.batchId = some k

theorem Pending.stored {objects : String → Option Object} {f : LiveFile}
    (h : Pending site fmt objects f) : f.Stored site objects :=
  ⟨h.data, by rw [h.deletionVector,h.bitmap]; rfl⟩

/-- What was written, for the rows of these files; `parts` is by the location of the file. -/
def partsOf (site : Site) (parts : String → List (String × List Nat)) (files : List LiveFile) :
    List (String × List Nat) := files.flatMap fun f => parts (site.locate f.entry.path)

theorem partsOf_append (files files' : List LiveFile) :
    partsOf site parts (files ++ files') = partsOf site parts files ++ partsOf site parts files' :=
  flatMap_append

theorem partsOf_congr {files : List LiveFile} {parts' : String → List (String × List Nat)}
    (h : ∀ f ∈ files, parts' (site.locate f.entry.path) = parts (site.locate f.entry.path)) :
    partsOf site parts' files = partsOf site parts files := flatMap_congr h

theorem partsOf_committed (files : List LiveFile) :
    partsOf site parts (withEntries files (committedEntries site m (files.map (·.entry)))) =
      partsOf site parts files := by
  have hrel : List.Forall₂ (Committed site m) (files.map (·.entry)) _ := forall₂_committedEntries _
  have hmap := map_withEntries (fun f => parts (site.locate f.entry.path))
    (fun f => parts (site.locate f.entry.path)) (fun f f' hR _ _ => congrArg parts hR.locate) hrel
  rw [partsOf,partsOf,flatMap_def,flatMap_def,hmap]

/-- Every row of the table and of the pending files was written under a key of its file, and no key
is there twice. -/
structure Ledger (site : Site) (fmt : FileFormat) (writes : List (String × List Nat))
    (s : IngestSession) (w : Store) (parts : String → List (String × List Nat)) (c : Content)
    (new : List LiveFile) : Prop where
  table : ∃ m views, TableOf site w m views c
  noDeletes : c.deletes = []
  pending : s.pendingFiles = new.map (·.entry)
  inPlace : ∀ f ∈ new, Pending site fmt w.objects f
  apart : ((c.files ++ new).map fun f => site.locate f.entry.path).Nodup
  keyed : ∀ f ∈ c.files ++ new, KeyedBy fmt f (parts (site.locate f.entry.path))
  distinct : ((partsOf site parts (c.files ++ new)).map Prod.fst).Nodup
  written : (partsOf site parts (c.files ++ new)).Subperm writes

def Ingested (site : Site) (fmt : FileFormat) (writes : List (String × List Nat))
    (s : IngestSession) (w : Store) : Prop :=
  ∃ parts c new, Ledger site fmt writes s w parts c new

namespace Ledger

variable (h : Ledger site fmt writes s w parts c new)

include h

theorem more (hs : s'.pendingFiles = s.pendingFiles) (more : List (String × List Nat)) :
    Ledger site fmt (writes ++ more) s' w parts c new :=
  { h with
    pending := hs.trans h.pending
    written := h.written.trans (sublist_append_left _ _).subperm }

theorem drop (ht : TableOf site w' m views c) (hs : s'.pendingFiles = []) :
    Ledger site fmt writes s' w' parts c [] where
  table := ⟨m,views,ht⟩
  noDeletes := h.noDeletes
  pending := hs
  inPlace := by simp
  apart := by
    rw [append_nil]
    exact ht.holds.apart
  keyed f hf := h.keyed f (mem_append_left _ (by simpa using hf))
  distinct := by
    have hd := h.distinct
    rw [partsOf_append,map_append] at hd
    rw [append_nil]
    exact hd.of_append_left
  written := by
    have hw := h.written
    rw [partsOf_append] at hw
    rw [append_nil]
    exact (sublist_append_left _ _).subperm.trans hw

theorem mem_files_data {f : LiveFile} (hf : f ∈ c.files ++ new) :
    w.objects (site.locate f.entry.path) = some (.dataFile f.file) := by
  obtain ⟨m,views,ht⟩ := h.table
  rcases mem_append.1 hf with hf | hf
  · exact (ht.holds.live f hf).data
  · exact (h.inPlace f hf).data

theorem locate_ne {f : LiveFile} (hf : f ∈ c.files ++ new) {path : String}
    (hp : NewData site w.objects path) : site.locate f.entry.path ≠ site.locate path := by
  intro he
  have hdata := h.mem_files_data hf
  rw [he,hp.absent] at hdata
  cases hdata

theorem mem_keys {f : LiveFile} (hf : f ∈ c.files ++ new) {k : String}
    (hk : k ∈ f.entry.batchIds fmt.jsonStrings) :
    k ∈ (partsOf site parts (c.files ++ new)).map Prod.fst := by
  obtain ⟨p,hp,rfl⟩ := mem_map.1 (((h.keyed f hf).keys k).1 hk)
  exact mem_map_of_mem (mem_flatMap.2 ⟨f,hf,hp⟩)

theorem exists_of_mem_keys {k : String}
    (hk : k ∈ (partsOf site parts (c.files ++ new)).map Prod.fst) :
    ∃ f ∈ c.files ++ new, k ∈ f.entry.batchIds fmt.jsonStrings := by
  obtain ⟨p,hp,rfl⟩ := mem_map.1 hk
  obtain ⟨f,hf,hp⟩ := mem_flatMap.1 hp
  exact ⟨f, hf, ((h.keyed f hf).keys _).2 (mem_map_of_mem hp)⟩

theorem stage {k : KeyedWrite} {file : DataFile} (hp : NewData site w.objects s.path)
    (hkey : fmt.jsonStrings k.key = none)
    (hnone : ∀ f ∈ c.files ++ new, k.key ∉ f.entry.batchIds fmt.jsonStrings)
    (hfile : s.writer.dataFile fmt k.batchWrite = .ok file)
    (hs : s'.pendingFiles = s.pendingFiles ++ [s.writer.entry fmt k.batchWrite s.path file]) :
    Ledger site fmt (writes ++ [(k.key, k.ids)]) s'
      (w.write (site.locate s.path) (.dataFile file))
      (update parts (site.locate s.path) [(k.key, k.ids)]) c
      (new ++ [⟨s.writer.entry fmt k.batchWrite s.path file, file, ∅⟩]) := by
  obtain ⟨m,views,ht⟩ := h.table
  have hpath : (s.writer.entry fmt k.batchWrite s.path file).path = s.path := path_entry _ _ _
  have hold : ∀ f ∈ c.files ++ new, update parts (site.locate s.path) [(k.key, k.ids)]
      (site.locate f.entry.path) = parts (site.locate f.entry.path) :=
    fun f hf => update_of_ne (h.locate_ne hf hp) _ _
  have hparts : partsOf site (update parts (site.locate s.path) [(k.key, k.ids)])
      (c.files ++ (new ++ [⟨s.writer.entry fmt k.batchWrite s.path file, file, ∅⟩])) =
        partsOf site parts (c.files ++ new) ++ [(k.key, k.ids)] := by
    rw [← append_assoc,partsOf_append,partsOf_congr hold]
    simp [partsOf,hpath]
  refine ⟨⟨m, views, ht.writeData hp _⟩, h.noDeletes, ?_, ?_, ?_, ?_, ?_, ?_⟩
  · rw [hs,h.pending,map_append]
    rfl
  · intro f hf
    rcases mem_append.1 hf with hf | hf
    · refine { h.inPlace f hf with data := ?_ }
      rw [World.write_objects,update_of_ne (h.locate_ne (mem_append_right _ hf) hp)]
      exact (h.inPlace f hf).data
    · rw [mem_singleton] at hf
      subst hf
      refine ⟨by simp [hpath], (written_of_dataFile s.path hfile).deletionVector, rfl, fun key hk => ?_⟩
      have hkeys := ((keyedBy_written s.path hkey hfile).keys key).1 hk
      simp only [map_cons,map_nil,mem_singleton] at hkeys
      rw [hkeys]
      rfl
  · rw [← append_assoc,map_append,nodup_append]
    refine ⟨h.apart, by simp, ?_⟩
    intro l hl l' hl' he
    obtain ⟨f,hf,rfl⟩ := mem_map.1 hl
    refine h.locate_ne hf hp (he.trans ?_)
    simpa [hpath] using hl'
  · intro f hf
    rw [← append_assoc] at hf
    rcases mem_append.1 hf with hf | hf
    · rw [hold f hf]
      exact h.keyed f hf
    · rw [mem_singleton] at hf
      subst hf
      simp only [hpath,update_self]
      exact keyedBy_written s.path hkey hfile
  · rw [hparts,map_append,nodup_append]
    refine ⟨h.distinct, by simp, ?_⟩
    intro key hmem key' hmem' he
    obtain ⟨f,hf,hk⟩ := h.exists_of_mem_keys hmem
    refine hnone f hf ?_
    have hkk : key' = k.key := by simpa using hmem'
    rw [← hkk,← he]
    exact hk
  · rw [hparts]
    exact h.written.append (List.Subperm.refl _)

theorem commit {m' : IcebergMetadata} (ht : TableOf site w' m' views
      ⟨c.files ++ withEntries new (committedEntries site m (new.map (·.entry))), c.deletes⟩)
    (hs : s'.pendingFiles = []) :
    Ledger site fmt writes s' w' parts
      ⟨c.files ++ withEntries new (committedEntries site m (new.map (·.entry))), c.deletes⟩ [] := by
  have hparts : partsOf site parts ((c.files ++ withEntries new
      (committedEntries site m (new.map (·.entry)))) ++ []) =
        partsOf site parts (c.files ++ new) := by
    rw [append_nil,partsOf_append,partsOf_append,partsOf_committed]
  refine ⟨⟨m',views,ht⟩, h.noDeletes, hs, by simp, ?_, ?_, ?_, ?_⟩
  · rw [append_nil]
    exact ht.holds.apart
  · intro f' hf'
    rw [append_nil] at hf'
    rcases mem_append.1 hf' with hf' | hf'
    · exact h.keyed f' (mem_append_left _ hf')
    · obtain ⟨f,hf,hR,hfile,hbitmap⟩ := exists_of_mem_withEntries (forall₂_committedEntries _) hf'
      rw [hR.locate]
      exact (h.keyed f (mem_append_right _ hf)).committed hR hfile hbitmap
  · rw [hparts]
    exact h.distinct
  · rw [hparts]
    exact h.written

end Ledger

theorem perm_filter_append {α β : Type} [DecidableEq β] {g : α → β} {k l : List α}
    (hn : (l.map g).Nodup) (hk : List.Subperm k l) :
    (l.filter (fun a => g a ∉ k.map g) ++ k).Perm l := by
  have hin : (l.filter fun a => g a ∈ k.map g).Perm k := by
    have hl := hn.of_map
    refine (perm_ext_iff_of_nodup (hl.filter _) ((nodup_map_of_subperm hk hn).of_map)).2 ?_
    intro a
    rw [mem_filter,decide_eq_true_iff]
    constructor
    · intro ha
      obtain ⟨b,hb,hba⟩ := mem_map.1 ha.2
      rwa [← inj_on_of_nodup_map hn (hk.subset hb) ha.1 hba]
    · exact fun ha => ⟨hk.subset ha, mem_map_of_mem ha⟩
  have hsplit := filter_append_perm (fun a => decide (g a ∈ k.map g)) l
  refine List.Perm.trans ?_ (perm_append_comm.trans hsplit)
  simp only [decide_not]
  exact hin.symm.append_left _

namespace Ledger

variable (h : Ledger site fmt writes s w parts c new)

include h

theorem keyedBy_merged {fs : List LiveFile} {path : String} {firstRowId : Option Int}
    {entry : DataFileEntry} {file : DataFile} (hfs : List.Subperm fs c.files)
    (hmerge : MergeOf fs path firstRowId entry file)
    (hkeys : CarriesKeys fmt (fs.map (·.entry)) entry)
    (hjson : ReadsArrays fmt (writes.map Prod.fst)) :
    KeyedBy fmt ⟨entry, file, ∅⟩ (partsOf site parts fs) := by
  have hkeyed : ∀ f ∈ fs, KeyedBy fmt f (parts (site.locate f.entry.path)) := fun f hf =>
    h.keyed f (mem_append_left _ (hfs.subset hf))
  have hsub : (fs.map (·.entry)).flatMap (·.batchIds fmt.jsonStrings) ⊆ writes.map Prod.fst := by
    intro key hkey
    obtain ⟨e,he,hkey⟩ := mem_flatMap.1 hkey
    obtain ⟨f,hf,rfl⟩ := mem_map.1 he
    have hmem := h.mem_keys (mem_append_left _ (hfs.subset hf)) hkey
    exact (map_subset _ h.written.subset) hmem
  refine ⟨?_, fun key => ?_⟩
  · rw [kept_of_empty,partsOf,flatMap_assoc]
    refine hmerge.ids.trans ?_
    rw [map_flatMap]
    exact List.Perm.flatMap_left fs fun f hf => (hkeyed f hf).ids
  · rw [mem_batchIds_merged hjson hsub hkeys,partsOf,map_flatMap,mem_flatMap]
    simp only [mem_map,exists_exists_and_eq_and]
    refine exists_congr fun f => and_congr_right fun hf => ?_
    rw [(hkeyed f hf).keys,mem_map]

theorem compacted {fs : List LiveFile} {path : String} {firstRowId : Option Int}
    {entry : DataFileEntry} {file : DataFile} (hp : NewData site w.objects path)
    (hfs : List.Subperm fs c.files) (hmerge : MergeOf fs path firstRowId entry file)
    (hkeys : CarriesKeys fmt (fs.map (·.entry)) entry)
    (hjson : ReadsArrays fmt (writes.map Prod.fst)) {m' : IcebergMetadata}
    (ht : TableOf site w' m' views (c.compacted site m fs ⟨entry, file, ∅⟩))
    (hkeep : ∀ f ∈ new, w'.objects (site.locate f.entry.path) = some (.dataFile f.file)) :
    Ledger site fmt writes s w'
      (update parts (site.locate path) (partsOf site parts fs))
      (c.compacted site m fs ⟨entry, file, ∅⟩) new := by
  obtain ⟨m₀,views₀,ht₀⟩ := h.table
  have hold : ∀ f ∈ c.files ++ new, update parts (site.locate path)
      (partsOf site parts fs) (site.locate f.entry.path) = parts (site.locate f.entry.path) :=
    fun f hf => update_of_ne (h.locate_ne hf hp) _ _
  have hrest : ∀ f ∈ c.files.filter (fun f => f.entry.path ∉ fs.map (·.entry.path)),
      f ∈ c.files ++ new := fun f hf => mem_append_left _ (mem_of_mem_filter hf)
  have hperm : (partsOf site (update parts (site.locate path) (partsOf site parts fs))
      ((c.compacted site m fs ⟨entry,file,∅⟩).files ++ new)).Perm
        (partsOf site parts (c.files ++ new)) := by
    rw [partsOf_append,Content.compacted,partsOf_committed,Content.replaced,partsOf_append,
      partsOf_congr fun f hf => hold f (hrest f hf),
      partsOf_congr fun f hf => hold f (mem_append_right _ hf),partsOf_append c.files new]
    refine List.Perm.append_right _ ?_
    have hmerged : partsOf site (update parts (site.locate path) (partsOf site parts fs))
        [⟨entry,file,∅⟩] = partsOf site parts fs := by
      simp [partsOf,hmerge.entryPath]
    rw [hmerged,← partsOf_append]
    exact (perm_filter_append ht₀.nodup_paths hfs).flatMap_right _
  have hkeysOf : (c.compacted site m fs ⟨entry,file,∅⟩).files.map
      (fun f => site.locate f.entry.path) =
        (c.replaced fs ⟨entry,file,∅⟩).map fun f => site.locate f.entry.path :=
    map_withEntries _ _ (fun f f' hR _ _ => hR.locate) (forall₂_committedEntries (m := m) _)
  refine ⟨⟨m',views,ht⟩,rfl,h.pending,?_,?_,?_,?_,?_⟩
  · exact fun f hf => { h.inPlace f hf with data := hkeep f hf }
  · rw [map_append,hkeysOf,nodup_append]
    have hapart := h.apart
    rw [map_append,nodup_append] at hapart
    refine ⟨ht₀.nodup_replaced hp hmerge.entryPath, hapart.2.1, ?_⟩
    intro l hl l' hl' he
    obtain ⟨f,hf,rfl⟩ := mem_map.1 hl
    obtain ⟨g,hg,rfl⟩ := mem_map.1 hl'
    rcases mem_replaced hf with ⟨hf,-⟩ | rfl
    · exact hapart.2.2 _ (mem_map_of_mem hf) _ (mem_map_of_mem hg) he
    · rw [hmerge.entryPath] at he
      exact h.locate_ne (mem_append_right _ hg) hp he.symm
  · intro f' hf'
    rcases mem_append.1 hf' with hf' | hf'
    · obtain ⟨f,hf,hR,hfile,hbitmap⟩ := exists_of_mem_withEntries (forall₂_committedEntries _) hf'
      rw [hR.locate]
      refine KeyedBy.committed ?_ hR hfile hbitmap
      rcases mem_replaced hf with ⟨hf,-⟩ | rfl
      · rw [hold f (mem_append_left _ hf)]
        exact h.keyed f (mem_append_left _ hf)
      · simp only [hmerge.entryPath,update_self]
        exact h.keyedBy_merged hfs hmerge hkeys hjson
    · rw [hold f' (mem_append_right _ hf')]
      exact h.keyed f' (mem_append_right _ hf')
  · exact ((hperm.map Prod.fst).nodup_iff).2 h.distinct
  · exact hperm.subperm.trans h.written

end Ledger
end Ledger

section Step

variable {site : Site} {fmt : FileFormat} {tx : TextForms} {m : IcebergMetadata}
  {views : List View} {c : Content} {s s' : IngestSession} {w w' : Store}
  {writes : List (String × List Nat)} {nowMs : Int}

theorem alreadyWritten_iff {key : String} {files : List LiveFile} :
    IngestSession.alreadyWritten fmt key (files.map (·.entry)) = true ↔
      ∃ f ∈ files, key ∈ f.entry.batchIds fmt.jsonStrings := by
  simp [IngestSession.alreadyWritten]

/-- A write either stages one file under a key that the listing does not have, or stages nothing;
then it failed, or the listing has the key. -/
theorem TableOf.writeBatchIdempotent (h : TableOf site w m views c) {k : KeyedWrite}
    {answer : Except AilakeError Unit × IngestSession}
    (hrun : (s.writeBatchIdempotent site fmt k).run w = (.ok answer, w')) :
    (w' = w ∧ answer.2.pendingFiles = s.pendingFiles ∧
      (answer.1 = .ok () → ∃ f ∈ c.files, k.key ∈ f.entry.batchIds fmt.jsonStrings)) ∨
    ∃ file, (∀ f ∈ c.files, k.key ∉ f.entry.batchIds fmt.jsonStrings) ∧
      s.writer.dataFile fmt k.batchWrite = .ok file ∧
      w' = w.write (site.locate s.path) (.dataFile file) ∧
      answer.2.pendingFiles =
        s.pendingFiles ++ [s.writer.entry fmt k.batchWrite s.path file] := by
  simp only [IngestSession.writeBatchIdempotent,run_bind,run_attempt,
    h.run_listFiles] at hrun
  by_cases hkey : IngestSession.alreadyWritten fmt k.key (c.files.map (·.entry)) = true
  · rw [if_pos hkey] at hrun
    cases hrun
    exact .inl ⟨rfl, rfl, fun _ => alreadyWritten_iff.1 hkey⟩
  · rw [if_neg hkey] at hrun
    have hnone : ∀ f ∈ c.files, k.key ∉ f.entry.batchIds fmt.jsonStrings :=
      fun f hf hk => hkey (alreadyWritten_iff.2 ⟨f,hf,hk⟩)
    unfold IngestSession.writeBatchWithId at hrun
    cases hvalid : validateEmbeddingDim s.writer.policy k.embeddings with
    | error e =>
      rw [hvalid] at hrun
      cases hrun
      exact .inl ⟨rfl, rfl, fun hok => nomatch hok⟩
    | ok u =>
      rw [hvalid] at hrun
      cases hfile : s.writer.dataFile fmt k.batchWrite with
      | error e =>
        rw [hfile] at hrun
        cases hrun
        exact .inl ⟨rfl, rfl, fun hok => nomatch hok⟩
      | ok file =>
        simp only [hfile,run_bind,run_attempt,run_putObject_reliable h.reliable] at hrun
        refine .inr ⟨file,hnone,rfl,?_⟩
        rcases hbm25 : k.bm25 with e | _ | bloom <;> rw [hbm25] at hrun <;> cases hrun <;>
          exact ⟨rfl,rfl⟩

theorem TableOf.ingestCommit (h : TableOf site w m views c) {snapshotId : SnapshotId}
    (hfresh : FreshSnapshot site w.objects m snapshotId) {new : List LiveFile}
    (hpending : s.pendingFiles = new.map (·.entry)) (hplace : ∀ f ∈ new, Pending site fmt w.objects f)
    (hapart : ((c.files ++ new).map fun f => site.locate f.entry.path).Nodup) :
    (∃ m' views', TableOf site ((s.commit site snapshotId nowMs).run w).2 m' views' c) ∨
    ∃ m' views', TableOf site ((s.commit site snapshotId nowMs).run w).2 m' views'
      ⟨c.files ++ withEntries new (committedEntries site m (new.map (·.entry))), c.deletes⟩ := by
  unfold IngestSession.commit
  split
  · left
    simp only [run_bind,h.run_currentSnapshotOrNone]
    exact ⟨m,views,h⟩
  · rcases run_commitSnapshot_reliable h.reliable h.stored (s.snapshot snapshotId) nowMs with
      ⟨-,id,w₁,hok⟩ | ⟨-,e,herr⟩
    · right
      obtain ⟨m',v,-,htable⟩ := h.commit hok hfresh new [] hpending
        (fun f hf => (hplace f hf).stored) rfl (by simp)
        (by simpa [IngestSession.snapshot,SnapshotOperation.inherits] using hapart)
      rw [hok]
      refine ⟨m', views ++ [v], ?_⟩
      simpa [Content.committed,IngestSession.snapshot,SnapshotOperation.inherits,
        hpending] using htable
    · left
      rw [herr]
      exact ⟨m, views, h.setMutex false⟩

theorem TableOf.of_objects_off (h : TableOf site w m views c) (hr : w'.Reliable) {path : String}
    (hp : NewData site w.objects path)
    (hoff : ∀ k, k ≠ site.locate path → w'.objects k = w.objects k) :
    TableOf site w' m views c := by
  have hobjects : w'.objects = update w.objects (site.locate path)
      (w'.objects (site.locate path)) := by
    funext k
    by_cases hk : k = site.locate path
    · subst hk
      rw [update_self]
    · rw [update_of_ne hk,hoff k hk]
  refine ⟨hr,?_,h.location,?_⟩
  · rw [hobjects]
    exact h.stored.update (offMetadata_of_isData hp.data) (by simp [hp.absent]) _
  · rw [hobjects]
    exact h.holds.mono (keepsContent_update (by simp [hp.absent]))

theorem Ledger.compaction {parts : String → List (String × List Nat)} {new : List LiveFile}
    (h : Ledger site fmt writes s w parts c new) {mode : CompactionMode} {selection : FileSelection}
    {ex : CompactionExecutor} {outputPrefix : String} {ts : Nat} {snapshotId : SnapshotId}
    (hid : FreshId site w.objects snapshotId)
    (hp : NewData site w.objects (outputPath outputPrefix ts))
    (hjson : ReadsArrays fmt (writes.map Prod.fst)) :
    Ingested site fmt writes s ((compactionRun site fmt mode selection.pick ex outputPrefix ts
      snapshotId nowMs).run w).2 := by
  obtain ⟨m,views,ht⟩ := h.table
  have hfresh := (hid.commit ht).toFreshSnapshot
  have hreliable := ht.reliable.run
    (compactionRun site fmt mode selection.pick ex outputPrefix ts snapshotId nowMs)
  rcases hrun : (compactionRun site fmt mode selection.pick ex outputPrefix ts snapshotId
    nowMs).run w with ⟨e | result, w'⟩ <;> rw [hrun] at hreliable
  · have hoff : ∀ k, k ≠ site.locate (outputPath outputPrefix ts) → w'.objects k = w.objects k :=
      fun k hk => ht.objects_compactionRun_error hp hrun hk
    refine ⟨parts, c, new, { h with
      table := ⟨m, views, ht.of_objects_off hreliable hp hoff⟩
      inPlace := fun f hf => ?_ }⟩
    refine { h.inPlace f hf with data := ?_ }
    rw [hoff _ (h.locate_ne (mem_append_right _ hf) hp)]
    exact (h.inPlace f hf).data
  · rcases ht.compactionRun_cases hrun with ⟨-,-,rfl⟩ | ⟨fs,entry,file,u,hfs,-,-,-,hmerge,
      hkeys,hcommit⟩
    · exact ⟨parts,c,new,h⟩
    · obtain ⟨m',v,-,ht'⟩ := ht.commitCompaction hfresh hp hfs hmerge.entryPath
        hmerge.deletionVector hcommit
      refine ⟨_, _, new, h.compacted hp hfs hmerge hkeys hjson ht' fun f hf => ?_⟩
      refine ht.objects_commitCompaction hfresh hp hcommit (h.inPlace f hf).data rfl fun hmem => ?_
      obtain ⟨g,hg,hgf⟩ := mem_map.1 hmem
      have hapart := h.apart
      rw [map_append,nodup_append] at hapart
      exact hapart.2.2 _ (mem_map_of_mem (hfs.subset hg)) _ (mem_map_of_mem hf) hgf

theorem IngestStep.ingested {call : IngestCall × Int} (hstep : IngestStep site fmt (s, w) call (s', w'))
    (h : Ingested site fmt writes s w) (hjson : ReadsArrays fmt (writes.map Prod.fst)) :
    Ingested site fmt (writes ++ call.1.writes) s' w' := by
  obtain ⟨call,nowMs⟩ := call
  obtain ⟨hrun,hfresh,hfits⟩ := hstep
  obtain ⟨parts,c,new,h⟩ := h
  obtain ⟨m,views,ht⟩ := h.table
  cases call with
  | write k =>
    obtain ⟨answer,w₁,h₁,hdone⟩ := run_bind_ok.1 hrun
    cases hdone
    rcases ht.writeBatchIdempotent h₁ with ⟨rfl,hpending,-⟩ | ⟨file,hlisted,hfile,rfl,hpending⟩
    · exact ⟨parts, c, new, h.more hpending _⟩
    · refine ⟨_, c, _, h.stage hfresh hfits.1 (fun f hf hk => ?_) hfile hpending⟩
      rcases mem_append.1 hf with hf | hf
      · exact hlisted f hf hk
      · refine hfits.2 ?_
        rw [h.pending,map_map,mem_map]
        exact ⟨f, hf, (h.inPlace f hf).plain _ hk⟩
  | commit id next =>
    simp only [IngestCall.program,run_bind,run_attempt,run_pure] at hrun
    cases hrun
    simp only [IngestCall.writes,append_nil]
    rcases ht.ingestCommit (hfresh.commit ht).toFreshSnapshot h.pending h.inPlace h.apart with
      ⟨m',views',ht'⟩ | ⟨m',views',ht'⟩
    · exact ⟨parts, c, [], h.drop ht' rfl⟩
    · exact ⟨parts, _, [], h.commit ht' rfl⟩
  | abandon next =>
    cases hrun
    simp only [IngestCall.writes,append_nil]
    exact ⟨parts, c, [], h.drop ht rfl⟩
  | compaction mode selection ex outputPrefix ts id =>
    simp only [IngestCall.program,run_bind,run_attempt,run_pure] at hrun
    cases hrun
    simp only [IngestCall.writes,append_nil]
    exact h.compaction hfresh.1 hfresh.2 hjson

theorem writesOf_concat (calls : List (IngestCall × Int)) (call : IngestCall × Int) :
    writesOf (calls ++ [call]) = writesOf calls ++ call.1.writes := by
  simp [writesOf]

theorem ingested_of_history {writer : TableWriter} {start : Store} {calls : List (IngestCall × Int)}
    {state : IngestSession × Store} (h : TableOf site start m views ⟨[], []⟩)
    (hrun : History (IngestStep site fmt) (.new writer, start) calls state)
    (hjson : ReadsArrays fmt ((writesOf calls).map Prod.fst)) :
    Ingested site fmt (writesOf calls) state.1 state.2 := by
  induction hrun with
  | start =>
    refine ⟨fun _ => [], ⟨[],[]⟩, [], ⟨m,views,h⟩, rfl, rfl, ?_, ?_, ?_, ?_, ?_⟩ <;>
      simp [partsOf,writesOf]
  | @step calls t u call _ hstep ih =>
    rw [writesOf_concat] at hjson ⊢
    rw [map_append] at hjson
    have hbefore := hjson.mono (subset_append_left _ _)
    exact hstep.ingested (ih hbefore) hbefore

/-- In every reachable state the table shows one copy of what was written under each of some
distinct keys, and a write answered with success without a file has one of them. -/
theorem ingest_oneCopy {writer : TableWriter} {start : Store} {calls : List (IngestCall × Int)}
    (h : TableOf site start m views ⟨[], []⟩)
    (hrun : History (IngestStep site fmt) (.new writer, start) calls (s, w))
    (hjson : ReadsArrays fmt ((writesOf calls).map Prod.fst)) :
    ∃ kept : List (String × List Nat), List.Subperm kept (writesOf calls) ∧
      (kept.map Prod.fst).Nodup ∧ (visibleIds site tx w).Perm (kept.flatMap Prod.snd) ∧
      ∀ (k : KeyedWrite) (s' : IngestSession) (w' : Store),
        (s.writeBatchIdempotent site fmt k).run w = (.ok (.ok (), s'), w') →
        s'.pendingFiles = s.pendingFiles → k.key ∈ kept.map Prod.fst := by
  obtain ⟨parts,c,new,hl⟩ := ingested_of_history h hrun hjson
  obtain ⟨m',views',ht⟩ := hl.table
  have hc : Ledger site fmt (writesOf calls) (.new writer) w parts c [] := hl.drop ht rfl
  refine ⟨partsOf site parts c.files, ?_, ?_, ?_, fun k s' w' hk hnothing => ?_⟩
  · simpa using hc.written
  · simpa using hc.distinct
  · rw [ht.visibleIds,visibleIds_of_unmasked (Content.unmasked_of_no_deletes hl.noDeletes),
      Content.keptIds,map_flatMap,partsOf,flatMap_assoc]
    exact List.Perm.flatMap_left _ fun f hf => (hl.keyed f (mem_append_left _ hf)).ids
  · rcases ht.writeBatchIdempotent hk with ⟨-,-,hlisted⟩ | ⟨file,-,-,-,hpending⟩
    · obtain ⟨f,hf,hkey⟩ := hlisted rfl
      simpa using hc.mem_keys (mem_append_left _ hf) hkey
    · rw [hnothing] at hpending
      simp at hpending

end Step

/-! A reader of JSON arrays that knows one of them, and a write that is made twice. -/

def demoKeys : FileFormat :=
  { demoFormat with jsonStrings := fun raw => if raw = "[\"a\"]" then some ["a"] else none }

def demoKeyed (id : Nat) (key : String) : KeyedWrite :=
  ⟨(demoBatch id "x").batch, [[0]], key, .ok none⟩

def demoIngest (session : String) : TableWriter := ⟨demoPolicy, none, session, none⟩

def demoRetry (key : String) : List (IngestCall × Int) :=
  [(.write (demoKeyed 7 key), 0), (.commit 1 (demoIngest "t"), 0),
    (.compaction .full (demoPlanner 1).selection demoExecutor "data" 1 2, 0),
    (.write (demoKeyed 8 key), 0), (.commit 3 (demoIngest "u"), 0)]

def demoCall (state : IngestSession × Store) (call : IngestCall × Int) : IngestSession × Store :=
  let ran := (call.1.program demoSite demoKeys state.1 call.2).run state.2
  (ran.1.toOption.getD state.1, ran.2)

def demoAfter (calls : List (IngestCall × Int)) : IngestSession × Store :=
  calls.foldl demoCall (.new (demoIngest "s"), demoTable 2)

theorem readsArrays_demoKeys : ReadsArrays demoKeys ["a", "a"] := by
  intro ids hne hn hsub
  have hall : ∀ k ∈ ids, k = "a" := fun k hk => by simpa using hsub hk
  have hids : ids = List.replicate ids.length "a" := eq_replicate_of_mem hall
  have hlen : ids.length = 1 := by
    have hpos := length_pos_iff.2 hne
    rw [hids,nodup_replicate] at hn
    omega
  rw [hids,hlen]
  decide

theorem ingestStep_demoCall {state : IngestSession × Store} {call : IngestCall × Int}
    (hrun : ((call.1.program demoSite demoKeys state.1 call.2).run state.2).1.isOk = true)
    (hfresh : call.1.Fresh demoSite state.1 state.2.objects) (hfits : call.1.Fits demoKeys state.1) :
    IngestStep demoSite demoKeys state call (demoCall state call) := by
  refine ⟨?_,hfresh,hfits⟩
  unfold demoCall
  rcases h : (call.1.program demoSite demoKeys state.1 call.2).run state.2 with ⟨e | s, w⟩
  · rw [h] at hrun
    cases hrun
  · rfl

theorem ingest_oneCopy_retry :
    visibleIds demoSite demoForms (demoAfter (demoRetry "a")).2 = [7] ∧
    ∃ kept : List (String × List Nat), List.Subperm kept (writesOf (demoRetry "a")) ∧
      (kept.map Prod.fst).Nodup ∧
      (visibleIds demoSite demoForms (demoAfter (demoRetry "a")).2).Perm (kept.flatMap Prod.snd) ∧
      ∀ (k : KeyedWrite) (s' : IngestSession) (w' : Store),
        ((demoAfter (demoRetry "a")).1.writeBatchIdempotent demoSite demoKeys k).run
          (demoAfter (demoRetry "a")).2 = (.ok (.ok (), s'), w') →
        s'.pendingFiles = (demoAfter (demoRetry "a")).1.pendingFiles → k.key ∈ kept.map Prod.fst := by
  let s₀ : IngestSession × Store := (.new (demoIngest "s"), demoTable 2)
  let s₁ := demoCall s₀ (.write (demoKeyed 7 "a"), 0)
  let s₂ := demoCall s₁ (.commit 1 (demoIngest "t"), 0)
  let s₃ := demoCall s₂ (.compaction .full (demoPlanner 1).selection demoExecutor "data" 1 2, 0)
  let s₄ := demoCall s₃ (.write (demoKeyed 8 "a"), 0)
  have h₁ : IngestStep demoSite demoKeys s₀ (.write (demoKeyed 7 "a"), 0) s₁ :=
    ingestStep_demoCall (by decide) (newData_of_ne (by decide) (by decide)) ⟨by decide, by decide⟩
  have h₂ : IngestStep demoSite demoKeys s₁ (.commit 1 (demoIngest "t"), 0) s₂ :=
    ingestStep_demoCall (by decide) ⟨by decide, by decide⟩ trivial
  have h₃ : IngestStep demoSite demoKeys s₂
      (.compaction .full (demoPlanner 1).selection demoExecutor "data" 1 2, 0) s₃ :=
    ingestStep_demoCall (by decide)
      ⟨⟨by decide, by decide⟩, newData_of_ne (by decide) (by decide)⟩ trivial
  have h₄ : IngestStep demoSite demoKeys s₃ (.write (demoKeyed 8 "a"), 0) s₄ :=
    ingestStep_demoCall (by decide) (newData_of_ne (by decide) (by decide)) ⟨by decide, by decide⟩
  have h₅ : IngestStep demoSite demoKeys s₄ (.commit 3 (demoIngest "u"), 0)
      (demoAfter (demoRetry "a")) :=
    ingestStep_demoCall (by decide) ⟨by decide, by decide⟩ trivial
  have hrun : History (IngestStep demoSite demoKeys) (.new (demoIngest "s"), demoTable 2)
      (demoRetry "a") (demoAfter (demoRetry "a")) :=
    .step (.step (.step (.step (.step .start h₁) h₂) h₃) h₄) h₅
  exact ⟨by decide, ingest_oneCopy (tableOf_demoTable 2) hrun readsArrays_demoKeys⟩

/-- A key that reads as a JSON array is not found again, so both copies are visible; a write under
the key inside of the array, never written, is skipped. -/
theorem ingest_twoCopies :
    let after := demoAfter (demoRetry "[\"a\"]")
    writesOf (demoRetry "[\"a\"]") = [("[\"a\"]", [7]),("[\"a\"]", [8])] ∧
      visibleIds demoSite demoForms after.2 = [7,8] ∧
      ((after.1.writeBatchIdempotent demoSite demoKeys (demoKeyed 9 "a")).run after.2).1 =
        .ok (.ok (), after.1) := by
  decide

end AiLake
