import AiLake.PointerCatalogSpec
import AiLake.TableNames

/-! Commits and schema changes of one JDBC table, side by side. An attempt reads the pointer, works
on what it then knows, stores new metadata and swaps the pointer if it is still the same; then it
has seen what it would have seen alone. -/
namespace AiLake

open StoreProgram PointerCatalog

abbrev JdbcWorld := PointerWorld (String × String) String
abbrev JdbcScript (α : Type) := PointerScript (String × String) String α

inductive JdbcCall where
  | commit (s : NewSnapshot)
  | evolve (e : SchemaEvolution)

namespace JdbcCall

variable (sqlError : String) (place : Place)

def program : JdbcCall → JdbcScript Int
  | .commit s => (jdbc sqlError).commitSnapshot place s
  | .evolve e => (jdbc sqlError).evolveSchema place e

def paths : JdbcCall → List MetaPath
  | .commit s => commitPaths s.snapshotId
  | .evolve _ => []

def name : JdbcCall → String
  | .commit _ => "commit_snapshot"
  | .evolve _ => "evolve_schema"

def change : JdbcCall → IcebergMetadata → JdbcScript (IcebergMetadata × Int)
  | .commit s => commitChange place s
  | .evolve e => evolveChange e

theorem program_eq (call : JdbcCall) : call.program sqlError place =
    (jdbc sqlError).swapLoop place call.name (call.change place) maxRetries := by
  cases call <;> rfl

def keys (call : JdbcCall) : Set String := {k | ∃ p ∈ call.paths, k = place.key p}

theorem changes (call : JdbcCall) :
    (jdbc sqlError).Changes place some (call.keys place) (call.change place) := by
  cases call with
  | commit s => exact changes_commit fun p hp => ⟨p,hp,rfl⟩
  | evolve e => exact changes_evolve e

end JdbcCall

/-- New metadata gets a name that is not in use. -/
def FreshDraw {Key Guard : Type} (w : PointerWorld Key Guard) (e : Draw) : PointerOp Key Guard → Prop
  | .putNew place _ => w.store.objects (place.locate (metadataPath place e.uuid)) = none
  | .store _ | .now | .select _ | .insert _ _ | .update _ _ _ => True

section Runs

variable {ι : Type}

abbrev JdbcPool (ι : Type) :=
  Pool ι JdbcWorld (pointerCalls (String × String) String) AilakeError Int Unit

def jdbcPool (sqlError : String) (place : Place) (calls : ι → JdbcCall) (w : JdbcWorld) :
    JdbcPool ι where
  shared := w
  thread i := ⟨(calls i).program sqlError place, ()⟩

/-- Calls made one after another, with what each returns. -/
inductive JdbcSerial (sqlError : String) (place : Place) (calls : ι → JdbcCall) (w : JdbcWorld) :
    List (ι × Int) → JdbcWorld → Prop
  | start : JdbcSerial sqlError place calls w [] w
  | call {order : List (ι × Int)} {w₁ w₂ : JdbcWorld} {i : ι} {a : Int}
      (h : JdbcSerial sqlError place calls w order w₁)
      (hcall : Script.Reaches (jdbc sqlError).perform FreshDraw ((calls i).program sqlError place) w₁
        (.done a) w₂) : JdbcSerial sqlError place calls w (order ++ [(i, a)]) w₂

/-- The table as the calls find it: `R` has all the names that it leads to, none of them to be written
by a call. -/
structure JdbcStart (place : Place) (calls : ι → JdbcCall) (w : JdbcWorld) (R : Set String) : Prop where
  reliable : w.store.Reliable
  keepsApart : KeepsApart place.locate
  row : ∀ row, w.rows (place.tableNamespace, place.tableName) = some row →
    row.2 = row.1 ∧ place.locate row.1 ∈ R
  closed : ∀ k ∈ R, ∀ o, w.store.objects k = some o → objectRefs place o ⊆ R
  stored : ∀ e : Draw, place.locate (metadataPath place e.uuid) ∈ R →
    w.store.objects (place.locate (metadataPath place e.uuid)) ≠ none
  unused : ∀ i, ∀ p ∈ (calls i).paths, place.key p ∉ R
  distinct : ∀ i j s s', calls i = .commit s → calls j = .commit s' →
    s.snapshotId = s'.snapshotId → i = j

/-- `order` has exactly the calls that have returned, with their answers; made one after another
they end with the same pointer, metadata and table. -/
structure JdbcSerialised (sqlError : String) (place : Place) (calls : ι → JdbcCall) (w : JdbcWorld)
    (p : JdbcPool ι) (order : List (ι × Int)) (ws : JdbcWorld) : Prop where
  nodup : (order.map Prod.fst).Nodup
  returned : ∀ i a, (i, a) ∈ order ↔ (p.thread i).program.result = some (.ok a)
  serial : JdbcSerial sqlError place calls w order ws
  pointer : p.shared.rows = ws.rows
  metadata : ∀ row, ws.rows (place.tableNamespace, place.tableName) = some row →
    p.shared.store.objects (place.locate row.1) = ws.store.objects (place.locate row.1)
  table : PointerUnchanged (jdbc sqlError) place ws p.shared

end Runs

/-! The shape of an attempt. -/

section Shape

variable {Key Guard α β : Type} {c : PointerCatalog Key Guard} {place : Place}

def swapTail (c : PointerCatalog Key Guard) (place : Place) (location : String) (seen : Guard) (a : α) :
    PointerScript Key Guard (Option α) :=
  .call (.update (c.key place) location seen) fun swapped => if swapped then .done (some a) else .done none

/-- An attempt between the read of the row and the write of the metadata. -/
def Preparing (c : PointerCatalog Key Guard) (place : Place) :
    PointerScript Key Guard (Option α) → Prop
  | .fail _ => True
  | .call (.store _) next => ∀ r, Preparing c place (next r)
  | .call .now next => ∀ r, Preparing c place (next r)
  | .call (.putNew _ _) next => (∃ e, next none = .fail e) ∧
      ∃ seen a, ∀ location, next (some location) = swapTail c place location seen a
  | .done _ | .call (.select _) _ | .call (.insert _ _) _ | .call (.update _ _ _) _ => False

/-- Calls to the store and the clock alone. -/
def Plain : PointerScript Key Guard β → Prop
  | .done _ | .fail _ => True
  | .call (.store _) next => ∀ r, Plain (next r)
  | .call .now next => ∀ r, Plain (next r)
  | .call (.putNew _ _) _ | .call (.select _) _ | .call (.insert _ _) _ | .call (.update _ _ _) _ => False

theorem Plain.rule {p : PointerScript Key Guard β} {f : β → PointerScript Key Guard α}
    (P : PointerScript Key Guard α → Prop) (hfail : ∀ e, P (.fail e))
    (hstore : ∀ op next, (∀ r, P (next r)) → P (.call (.store op) next))
    (hnow : ∀ next, (∀ r, P (next r)) → P (.call .now next))
    (hp : Plain p) (hf : ∀ b, P (f b)) : P (p >>= f) := by
  induction p with
  | done b => exact hf b
  | fail e => exact hfail e
  | call op next ih =>
    cases op with
    | store op => exact hstore op _ fun r => ih r (hp r)
    | now => exact hnow _ fun r => ih r (hp r)
    | putNew p m => exact hp.elim
    | select key => exact hp.elim
    | insert key location => exact hp.elim
    | update key location seen => exact hp.elim

theorem Plain.bind {p : PointerScript Key Guard β} {f : β → PointerScript Key Guard α} (hp : Plain p)
    (hf : ∀ b, Plain (f b)) : Plain (p >>= f) :=
  hp.rule Plain (fun _ => trivial) (fun _ _ h => h) (fun _ h => h) hf

theorem Plain.preparing {p : PointerScript Key Guard β} {f : β → PointerScript Key Guard (Option α)}
    (hp : Plain p) (hf : ∀ b, Preparing c place (f b)) : Preparing c place (p >>= f) :=
  hp.rule (Preparing c place) (fun _ => trivial) (fun _ _ h => h) (fun _ h => h) hf

theorem plain_onStore (p : Program β) : Plain (onStore p : PointerScript Key Guard β) := by
  induction p with
  | done a => trivial
  | fail e => trivial
  | call op next ih => exact ih

theorem JdbcCall.plain_change (call : JdbcCall) (m : IcebergMetadata) : Plain (call.change place m) := by
  cases call with
  | commit s => exact fun nowMs => (plain_onStore _).bind fun _ => trivial
  | evolve e =>
    intro nowMs
    simp only [Script.bind]
    split <;> trivial

theorem swapAttempt_eq (c : PointerCatalog Key Guard) (place : Place)
    {change : IcebergMetadata → PointerScript Key Guard (IcebergMetadata × α)}
    (hchange : ∀ m, Plain (change m)) :
    ∃ next, c.swapAttempt place change = .call (.select (c.key place)) next ∧
      next none = .fail (c.notFound place) ∧ ∀ row, Preparing c place (next (some row)) := by
  refine ⟨_, rfl, rfl, fun row => ?_⟩
  refine (plain_onStore (loadIcebergMetadata place row.1)).preparing fun m => ?_
  refine (hchange m).preparing fun changed => ?_
  exact ⟨⟨_,rfl⟩, row.2, changed.2, fun location => rfl⟩

end Shape
end AiLake
