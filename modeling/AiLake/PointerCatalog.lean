import AiLake.Hadoop
import AiLake.StoreProgram.Interleaving

/-! `glue.rs` and `jdbc.rs`: catalogs that keep in a service a pointer to each table's current
metadata. New metadata gets a new name; the pointer is swapped if it is still what was read. -/
namespace AiLake

open StoreProgram

structure TableIdent where
  tableNamespace : String
  name : String
  deriving DecidableEq, Repr

/-- What `create_table` takes, as far as it goes into the metadata. -/
structure TableProperties where
  formatVersion : Nat
  partitionBy : Option String
  partitionColumnType : Option String
  partitionFields : List PartitionDef
  properties : Properties
  deriving DecidableEq

def TableProperties.metadata (props : TableProperties) (location : String) (nowMs : Int) :
    IcebergMetadata :=
  .new location props.formatVersion props.partitionBy props.partitionColumnType
    props.partitionFields props.properties nowMs

/-! Where each catalog keeps a table. -/

def hadoopPlace (warehouse : String) (locate : String → String) (table : TableIdent) : Place where
  warehouse := trimEndSlashes warehouse
  tableNamespace := table.tableNamespace
  tableName := table.name
  root := tableRoot (trimEndSlashes warehouse) table.tableNamespace table.name
  locate := locate

/- Trimmed for the root, but not for the paths of data files. -/
def gluePlace (warehouse : String) (locate : String → String) (table : TableIdent) : Place where
  warehouse := warehouse
  tableNamespace := table.tableNamespace
  tableName := table.name
  root := trimEndSlashes warehouse ++ "/" ++ table.tableNamespace ++ "/" ++ table.name
  locate := locate

def jdbcPlace (warehouse : String) (locate : String → String) (table : TableIdent) : Place where
  warehouse := trimEndSlashes warehouse
  tableNamespace := table.tableNamespace
  tableName := table.name
  root := trimEndSlashes warehouse ++ "/" ++ table.tableNamespace ++ "/" ++ table.name
  locate := locate

def metadataPath (place : Place) (uuid : String) : String :=
  place.root ++ "/metadata/" ++ (uuid ++ ".metadata.json")

/-! The calls. -/

/-- `putNew` stores metadata under a random name; `select`, `insert` and `update` are requests to
the service, `update` by the guard that was read. -/
inductive PointerOp (Key Guard : Type) where
  | store (op : Op String Object)
  | now
  | putNew (place : Place) (m : IcebergMetadata)
  | select (key : Key)
  | insert (key : Key) (location : String)
  | update (key : Key) (location : String) (guard : Guard)

variable {Key Guard : Type}

@[reducible] def PointerOp.Reply : PointerOp Key Guard → Type
  | .store op => op.Reply
  | .now => Int
  | .putNew _ _ => Option String
  | .select _ => Option (String × Guard)
  | .insert _ _ | .update _ _ _ => Bool

@[reducible] def pointerCalls (Key Guard : Type) : Interface := ⟨PointerOp Key Guard, PointerOp.Reply⟩

abbrev PointerScript (Key Guard α : Type) := Script (pointerCalls Key Guard) AilakeError α

/-- The store, and the row of each table. -/
@[ext] structure PointerWorld (Key Guard : Type) where
  store : Store
  rows : Key → Option (String × Guard)

/-- What a call draws: a random UUID and the time. -/
structure Draw where
  uuid : String
  slashFree : '/' ∉ uuid.toList
  nowMs : Int

/-- How a service names tables and guards its rows, and the errors that the catalog makes of its
answers. -/
structure PointerCatalog (Key Guard : Type) where
  key : Place → Key
  guard : String → Option Guard → Guard
  notFound : Place → AilakeError
  duplicate : AilakeError
  lost : String → AilakeError

/-- Glue has one namespace for the tables of a database, and a version for each row. -/
def glue (serviceError : String) : PointerCatalog String Nat where
  key place := place.tableName
  guard _ previous := previous.elim 0 Nat.succ
  notFound _ := .catalog ("Glue get_table: " ++ serviceError)
  duplicate := .catalog ("Glue create_table: " ++ serviceError)
  lost _ := .catalog ("Glue update_table: " ++ serviceError)

/-- The row is found by namespace and name, and an update guarded by the location that was read. -/
def jdbc (sqlError : String) : PointerCatalog (String × String) String where
  key place := (place.tableNamespace, place.tableName)
  guard location _ := location
  notFound place :=
    .catalog ("table not found: " ++ place.tableNamespace ++ "." ++ place.tableName)
  duplicate := .catalog ("JDBC create_table: " ++ sqlError)
  lost call := .catalog ("JDBC " ++ call ++ ": 5 retries exhausted (concurrent modification)")

def PointerCatalog.perform [DecidableEq Key] [DecidableEq Guard] (c : PointerCatalog Key Guard)
    (w : PointerWorld Key Guard) (e : Draw) :
    (op : PointerOp Key Guard) → op.Reply × PointerWorld Key Guard
  | .store op => ((op.perform w.store).1, { w with store := (op.perform w.store).2 })
  | .now => (e.nowMs, w)
  | .putNew place m =>
    if w.store.faults 0 then (none, { w with store := w.store.tick })
    else (some (metadataPath place e.uuid), { w with
      store := w.store.tick.write (place.locate (metadataPath place e.uuid)) (.metadata m) })
  | .select key => (w.rows key, w)
  | .insert key location =>
    match w.rows key with
    | some _ => (false, w)
    | none => (true, { w with
        rows := Function.update w.rows key (some (location, c.guard location none)) })
  | .update key location guard =>
    match w.rows key with
    | none => (false, w)
    | some (_, current) =>
      if current = guard then (true, { w with
        rows := Function.update w.rows key (some (location, c.guard location (some guard))) })
      else (false, w)

/-! The programs. -/

def onStore {α : Type} : Program α → PointerScript Key Guard α
  | .done a => .done a
  | .fail e => .fail e
  | .call op next => .call (.store op) fun r => onStore (next r)

def loadIcebergMetadata (place : Place) (location : String) : Program IcebergMetadata := do
  match ← getObject place location with
  | .metadata m => pure m
  | _ => .fail .json

namespace PointerCatalog

def call (op : PointerOp Key Guard) : PointerScript Key Guard op.Reply := .call op .done

variable (c : PointerCatalog Key Guard) (place : Place) {α : Type}

def getMetadataLocation : PointerScript Key Guard (String × Guard) := do
  match ← call (.select (c.key place)) with
  | some row => pure row
  | none => .fail (c.notFound place)

def createTable (props : TableProperties) : PointerScript Key Guard Unit := do
  let nowMs ← call .now
  match ← call (.putNew place (props.metadata place.root nowMs)) with
  | none => .fail .store
  | some location => do
    if ← call (.insert (c.key place) location) then pure () else .fail c.duplicate

def loadTable : PointerScript Key Guard TableMetadata := do
  let row ← c.getMetadataLocation place
  let m ← onStore (loadIcebergMetadata place row.1)
  pure m.toTableMetadata

def listFiles (snapshotId : Option SnapshotId) : PointerScript Key Guard (List DataFileEntry) := do
  let row ← c.getMetadataLocation place
  let m ← onStore (loadIcebergMetadata place row.1)
  onStore (listFilesFromMetadata place m snapshotId)

/-- One attempt: read, change, store under a new name, swap. `none` is a swap that was refused. -/
def swapAttempt (change : IcebergMetadata → PointerScript Key Guard (IcebergMetadata × α)) :
    PointerScript Key Guard (Option α) := do
  let row ← c.getMetadataLocation place
  let m ← onStore (loadIcebergMetadata place row.1)
  let changed ← change m
  match ← call (.putNew place changed.1) with
  | none => .fail .store
  | some location => do
    if ← call (.update (c.key place) location row.2) then pure (some changed.2) else pure none

/-- Both calls that change a table try again with what is then there. -/
def swapLoop (name : String)
    (change : IcebergMetadata → PointerScript Key Guard (IcebergMetadata × α)) :
    Nat → PointerScript Key Guard α
  | 0 => .fail (c.lost name)
  | n + 1 => do
    match ← c.swapAttempt place change with
    | some a => pure a
    | none => swapLoop name change n

def maxRetries : Nat := 5

def commitChange (s : NewSnapshot) (m : IcebergMetadata) :
    PointerScript Key Guard (IcebergMetadata × SnapshotId) := do
  let nowMs ← call .now
  let artifacts ← onStore (buildCommit place m s nowMs)
  pure (m.applyCommit artifacts, artifacts.snapshot.snapshotId)

def commitSnapshot (s : NewSnapshot) : PointerScript Key Guard SnapshotId :=
  c.swapLoop place "commit_snapshot" (commitChange place s) maxRetries

def evolveChange (e : SchemaEvolution) (m : IcebergMetadata) :
    PointerScript Key Guard (IcebergMetadata × Int) := do
  let nowMs ← call .now
  match m.evolved e nowMs with
  | none => .fail (.catalog "current schema not found in metadata")
  | some m' => pure (m', m'.currentSchemaId)

def evolveSchema (e : SchemaEvolution) : PointerScript Key Guard Int :=
  c.swapLoop place "evolve_schema" (evolveChange e) maxRetries

end PointerCatalog
end AiLake
