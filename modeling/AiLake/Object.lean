import Mathlib.Data.Finset.Basic
import AiLake.StoreProgram.Basic
import AiLake.Layout
import AiLake.EqualityDelete
import AiLake.AvroManifest
import AiLake.Metadata

/-! What the store holds for a table, and the programs that run against it. An object is the decoded
value that its reader gets; `unreadable` are bytes no reader takes. -/
namespace AiLake

open StoreProgram Prog

/-- Positions of deleted rows; a position is compared as a `u32`. -/
abbrev Bitmap := Finset Nat

def Bitmap.hides (bitmap : Bitmap) (i : Nat) : Bool := i % 2 ^ 32 ∈ bitmap

structure PuffinBlob where
  offset : Nat
  length : Nat
  bitmap : Bitmap
  deriving DecidableEq

inductive IndexKind where
  | hnsw
  | ivfPq
  deriving DecidableEq, Repr

structure VectorIndex where
  kind : IndexKind
  nodeCount : Nat
  deriving DecidableEq, Repr

/-- A data file: its Parquet rows, the vector of each row, and what is embedded behind them. -/
structure DataFile where
  batch : RecordBatch
  vectors : List (List F32)
  index : Option VectorIndex
  fts : Bool
  deriving DecidableEq

inductive Object where
  | versionHint (version : Option Nat)
  | metadata (m : IcebergMetadata)
  | manifestList (entries : List ManifestListEntry)
  | manifest (entries : List ManifestEntry)
  | deleteManifest (entries : List DeleteManifestEntry)
  | equalityDelete (payload : EqualityDeleteAvro)
  | puffin (blobs : List PuffinBlob)
  | dataFile (file : DataFile)
  | statistics (vectors : List (String × String × F32)) (blooms : List (String × List UInt8))
  | partitionStatistics (entries : List DataFileEntry)
  | unreadable
  deriving DecidableEq

abbrev Store := World String Object

abbrev Program (α : Type) := Prog String Object AilakeError α

section Calls

variable (site : Place)

def getObject (path : String) : Program Object := do
  match ← Prog.get (site.locate path) with
  | some o => pure o
  | none => .fail .store

def putObject (path : String) (o : Object) : Program Unit := do
  if ← Prog.put (site.locate path) o then pure () else .fail .store

variable {site} {path : String} {o : Object} {w : Store}

theorem run_getObject : (getObject site path).run w =
    (if w.faults 0 then .error .store
      else match w.objects (site.locate path) with
        | some o => .ok o
        | none => .error .store, w.tick) := by
  simp only [getObject,run_bind,run_get]
  cases w.faults 0 <;> cases w.objects (site.locate path) <;> rfl

theorem run_putObject : (putObject site path o).run w =
    if w.faults 0 then (.error .store, w.tick)
    else (.ok (), w.tick.write (site.locate path) o) := by
  simp only [putObject,run_bind,run_put]
  cases w.faults 0 <;> rfl

theorem run_putObject_ok {u : Unit} {w' : Store} (h : (putObject site path o).run w = (.ok u, w')) :
    w' = w.tick.write (site.locate path) o := by
  rw [run_putObject] at h
  split at h
  · cases h
  · exact (Prod.mk.inj h).2.symm

theorem run_getObject_ok {w' : Store} (h : (getObject site path).run w = (.ok o, w')) :
    w.objects (site.locate path) = some o ∧ w' = w.tick := by
  rw [run_getObject] at h
  obtain ⟨h₁,h₂⟩ := Prod.mk.inj h
  refine ⟨?_,h₂.symm⟩
  split at h₁
  · cases h₁
  · split at h₁
    · cases h₁
      assumption
    · cases h₁

theorem touches_putObject {S : Set String} (hk : site.locate path ∈ S) (o : Object) :
    (putObject site path o).Touches S := by
  refine (touches_put hk o).bind fun stored => ?_
  cases stored
  · exact touches_fail _
  · exact touches_pure _

end Calls
end AiLake
