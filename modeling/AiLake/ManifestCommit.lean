import AiLake.Object

/-! `manifest_commit.rs`: the manifests and the manifest list of a new snapshot, and reading a
snapshot back from them. -/
namespace AiLake

open StoreProgram

section Build

variable (site : Place)

/- Row lineage: a file that brings no first row id gets the next free one. -/
def assignRowIds : Int → List DataFileEntry → Int × List DataFileEntry
  | next, [] => (next, [])
  | next, f :: rest =>
    match f.firstRowId with
    | some _ =>
      let r := assignRowIds next rest
      (r.1, f :: r.2)
    | none =>
      let r := assignRowIds (next + f.recordCount) rest
      (r.1, { f with firstRowId := some next } :: r.2)

def committedFiles (m : IcebergMetadata) (files : List DataFileEntry) :
    Int × List DataFileEntry :=
  let absFiles := files.map fun f => { f with path := absoluteDataPath site.warehouse f.path }
  if 3 ≤ m.formatVersion then assignRowIds m.nextRowId absFiles else (m.nextRowId, absFiles)

def committedDeletes (deletes : List EqualityDeleteFile) : List EqualityDeleteFile :=
  deletes.map fun d => { d with
    path := if isAbsolute d.path then d.path else site.root ++ "/" ++ d.path
    inlineValues := none
    sequenceNumber := 0 }

/- The sizes are only recorded; a failed request counts as size 0. -/
def sizeManifests : List ManifestListEntry → Program Unit
  | [] => pure ()
  | e :: rest => do
    let _ ← Prog.head (site.locate e.manifestPath)
    sizeManifests rest

/- The manifests that an Append or Delete takes over. No failed read of the previous manifest list,
and no unreadable one, stops the commit. -/
def inheritedManifests (m : IcebergMetadata) (operation : SnapshotOperation) :
    Program (List ManifestListEntry) :=
  if operation.inherits then
    match m.snapshots.getLast? with
    | none => pure []
    | some prev => do
      match ← Prog.get (site.locate prev.manifestList) with
      | some (.manifestList entries) => do
        sizeManifests site entries
        pure entries
      | _ => pure []
  else pure []

def writeDeleteManifest (id : SnapshotId) (seq : Int) (deletes : List EqualityDeleteFile) :
    Program (List ManifestListEntry) :=
  if deletes.isEmpty then pure []
  else do
    putObject site (site.path (.deleteManifest id))
      (.deleteManifest (writeEqualityDeleteManifest deletes seq))
    pure [⟨site.path (.deleteManifest id), 1⟩]

def collectVectorStats (files : List DataFileEntry) : List (String × String × F32) :=
  files.filterMap fun f =>
    match f.centroidB64, f.radius with
    | some centroid, some radius => some (f.path, centroid, radius)
    | _, _ => none

def writeStatistics (m : IcebergMetadata) (s : NewSnapshot) (files : List DataFileEntry) :
    Program (Option StatisticsRef) :=
  if 3 ≤ m.formatVersion ∧ collectVectorStats files ≠ [] then do
    let path := site.path (.statistics s.snapshotId)
    if ← Prog.put (site.locate path) (.statistics (collectVectorStats files) s.bloomFilters) then
      pure (some ⟨s.snapshotId, path⟩)
    else pure none
  else pure none

/- Manifests that cannot be read are left out of the statistics. -/
def readForStatistics : List ManifestListEntry → Program (List DataFileEntry)
  | [] => pure []
  | e :: rest =>
    if e.content ≠ 0 then readForStatistics rest
    else do
      let o ← Prog.get (site.locate e.manifestPath)
      let files ← readForStatistics rest
      match o with
      | some (.manifest entries) => pure (readManifestFile entries ++ files)
      | _ => pure files

def writePartitionStatistics (m : IcebergMetadata) (s : NewSnapshot)
    (manifests : List ManifestListEntry) : Program (Option StatisticsRef) :=
  match m.partitionSpec with
  | none => pure none
  | some spec =>
    if spec.isUnpartitioned then pure none
    else do
      let entries ← readForStatistics site manifests
      let path := site.path (.partitionStatistics s.snapshotId)
      if ← Prog.put (site.locate path) (.partitionStatistics entries) then
        pure (some ⟨s.snapshotId, path⟩)
      else pure none

def icebergSnapshot (m : IcebergMetadata) (s : NewSnapshot) (nowMs : Int) : IcebergSnapshot where
  snapshotId := s.snapshotId
  parentSnapshotId := s.parentSnapshotId
  sequenceNumber := m.lastSequenceNumber + 1
  timestampMs := nowMs
  manifestList := site.path (.manifestList s.snapshotId)
  summary := [("operation", s.operation.lowercase), ("added-data-files", toString s.files.length)]
  schemaId := some 0

def commitArtifacts (m : IcebergMetadata) (s : NewSnapshot) (nowMs : Int)
    (statistics partitionStatistics : Option StatisticsRef) : CommitArtifacts where
  snapshot := icebergSnapshot site m s nowMs
  nextRowId := (committedFiles site m s.files).1
  lastSequenceNumber := m.lastSequenceNumber + 1
  lastUpdatedMs := nowMs
  schemaPatch := s.icebergSchema.map (schemaPatch m.partitionSpecs)
  extraProperties := s.extraProperties
  statistics := statistics
  partitionStatistics := partitionStatistics

def buildCommit (m : IcebergMetadata) (s : NewSnapshot) (nowMs : Int) :
    Program CommitArtifacts := do
  let seq := m.lastSequenceNumber + 1
  let files := (committedFiles site m s.files).2
  putObject site (site.path (.manifest s.snapshotId))
    (.manifest (writeManifestFile files seq m.partitionSpec))
  let inherited ← inheritedManifests site m s.operation
  let deletes ← writeDeleteManifest site s.snapshotId seq
    (committedDeletes site s.equalityDeleteFiles)
  let manifests := inherited ++ ⟨site.path (.manifest s.snapshotId), 0⟩ :: deletes
  putObject site (site.path (.manifestList s.snapshotId)) (.manifestList manifests)
  let statistics ← writeStatistics site m s files
  let partitionStatistics ← writePartitionStatistics site m s manifests
  pure (commitArtifacts site m s nowMs statistics partitionStatistics)

end Build

section List

variable (site : Place)

def getManifestList (path : String) : Program (List ManifestListEntry) := do
  match ← getObject site path with
  | .manifestList entries => pure entries
  | _ => .fail (.catalog "not a manifest list")

def getManifest (path : String) : Program (List DataFileEntry) := do
  match ← getObject site path with
  | .manifest entries => pure (readManifestFile entries)
  | _ => .fail (.catalog "not a manifest")

def getDeleteManifest (path : String) : Program (List EqualityDeleteFile) := do
  match ← getObject site path with
  | .deleteManifest entries => pure (readEqualityDeleteManifest entries)
  | _ => .fail (.catalog "not a delete manifest")

/- Both listings walk the manifest list and read the manifests of one content. -/
def readManifests {α : Type} (content : Int) (read : String → Program (List α)) :
    List ManifestListEntry → Program (List α)
  | [] => pure []
  | e :: rest =>
    if e.content ≠ content then readManifests content read rest
    else do
      let entries ← read e.manifestPath
      let more ← readManifests content read rest
      pure (entries ++ more)

def listFromMetadata {α : Type} (content : Int) (read : String → Program (List α))
    (m : IcebergMetadata) (snapshotId : Option SnapshotId) : Program (List α) :=
  match snapshotId.or m.currentSnapshotId with
  | none => pure []
  | some id =>
    match m.snapshots.find? fun s => s.snapshotId = id with
    | none => .fail (.catalog ("snapshot " ++ toString id ++ " not found"))
    | some snap => do
      let manifests ← getManifestList site snap.manifestList
      readManifests content read manifests

def listFilesFromMetadata (m : IcebergMetadata) (snapshotId : Option SnapshotId) :
    Program (List DataFileEntry) :=
  listFromMetadata site 0 (getManifest site) m snapshotId

def listEqualityDeletesFromMetadata (m : IcebergMetadata) (snapshotId : Option SnapshotId) :
    Program (List EqualityDeleteFile) :=
  listFromMetadata site 1 (getDeleteManifest site) m snapshotId

end List
end AiLake
