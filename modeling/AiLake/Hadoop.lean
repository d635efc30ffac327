import AiLake.ManifestCommit

/-! `hadoop.rs`: the catalog that keeps versioned metadata files behind a version hint. -/
namespace AiLake

open StoreProgram

variable (site : Place)

/- Version 0 when there is no hint, 1 when the hint is no number. -/
def currentVersion : Program Nat := do
  match ← Prog.get (site.key .versionHint) with
  | some (.versionHint version) => pure (version.getD 1)
  | some _ => pure 1
  | none => pure 0

def loadRawMetadata : Program IcebergMetadata := do
  let version ← currentVersion site
  match ← getObject site (site.path (.metadataJson version)) with
  | .metadata m => pure m
  | _ => .fail .json

def saveMetadata (m : IcebergMetadata) : Program Unit := do
  let next := (← currentVersion site) + 1
  putObject site (site.path (.metadataJson next)) (.metadata m)
  putObject site (site.path .versionHint) (.versionHint (some next))

def createTable (m : IcebergMetadata) : Program Unit := do
  if (← currentVersion site) > 0 then
    .fail (.catalog ("table " ++ site.tableNamespace ++ "." ++ site.tableName ++ " already exists"))
  else saveMetadata site m

def loadTable : Program TableMetadata := do
  let m ← loadRawMetadata site
  pure m.toTableMetadata

def commitBody (s : NewSnapshot) (nowMs : Int) : Program SnapshotId := do
  let m ← loadRawMetadata site
  let artifacts ← buildCommit site m s nowMs
  saveMetadata site (m.applyCommit artifacts)
  pure artifacts.snapshot.snapshotId

/- The mutex is held from start to end; the lock object is released even when the body failed. -/
def commitSnapshot (s : NewSnapshot) (nowMs : Int) : Program SnapshotId := do
  Prog.enter
  match ← Prog.tryLock (site.key .commitLock) with
  | none => do
    Prog.leave
    .fail .store
  | some false => do
    Prog.leave
    .fail (.catalog ("table " ++ site.tableNamespace ++ "." ++ site.tableName ++
      " is being committed by another process"))
  | some true => do
    let result ← (commitBody site s nowMs).attempt
    let released ← Prog.unlock (site.key .commitLock)
    Prog.leave
    match result with
    | .error e => .fail e
    | .ok id => if released then pure id else .fail .store

def listFiles (snapshotId : Option SnapshotId) : Program (List DataFileEntry) := do
  let m ← loadRawMetadata site
  listFilesFromMetadata site m snapshotId

def listEqualityDeletes (snapshotId : Option SnapshotId) : Program (List EqualityDeleteFile) := do
  let m ← loadRawMetadata site
  listEqualityDeletesFromMetadata site m snapshotId

/- Takes neither the mutex nor the lock object. -/
def evolveSchema (e : SchemaEvolution) (nowMs : Int) : Program Int := do
  let m ← loadRawMetadata site
  match m.evolved e nowMs with
  | none => .fail (.catalog "current schema not found in metadata")
  | some m' => do
    saveMetadata site m'
    pure m'.currentSchemaId

end AiLake
