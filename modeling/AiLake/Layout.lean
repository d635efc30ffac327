import Mathlib

/-! Where a table keeps its objects. Names are the source's own texts; two different metadata
objects never share one. -/
namespace AiLake

/-- The objects under the metadata directory of a table. -/
inductive MetaPath where
  | versionHint
  | metadataJson (version : Nat)
  | manifest (snapshot : Int)
  | deleteManifest (snapshot : Int)
  | manifestList (snapshot : Int)
  | statistics (snapshot : Int)
  | partitionStatistics (snapshot : Int)
  | deletionVector (snapshot : Int)
  | equalityDelete (snapshot : Int)
  | commitLock
  deriving DecidableEq, Repr

namespace MetaPath

def name : MetaPath → String
  | .versionHint => "version-hint.text"
  | .metadataJson v => "v" ++ v.repr ++ ".metadata.json"
  | .manifest id => id.repr ++ "-m0.avro"
  | .deleteManifest id => id.repr ++ "-eq-del.avro"
  | .manifestList id => "snap-" ++ id.repr ++ "-1.avro"
  | .statistics id => "stats-" ++ id.repr ++ ".puffin"
  | .partitionStatistics id => "partition-stats-" ++ id.repr ++ ".parquet"
  | .deletionVector id => "dv-" ++ id.repr ++ ".dvd"
  | .equalityDelete id => "eq-del-" ++ id.repr ++ ".avro"
  | .commitLock => ".ailake-commit.lock"

def render (root : String) (p : MetaPath) : String := root ++ "/metadata/" ++ p.name

theorem head_repr_nat (n : Nat) : ∃ c cs, n.repr.toList = c :: cs ∧ c.isDigit := by
  have hne : n.repr.toList ≠ [] := by
    rw [Nat.toList_repr]
    exact Nat.toDigits_ne_nil
  obtain ⟨c,cs,hc⟩ := List.exists_cons_of_ne_nil hne
  refine ⟨c,cs,hc,?_⟩
  have hm : c ∈ n.repr.toList := by simp [hc]
  rw [Nat.toList_repr] at hm
  exact Nat.isDigit_of_mem_toDigits (by decide) (by decide) hm

theorem head_repr_int (n : Int) : ∃ c cs, n.repr.toList = c :: cs ∧ (c.isDigit ∨ c = '-') := by
  cases n with
  | ofNat m =>
    obtain ⟨c,cs,hc,hd⟩ := head_repr_nat m
    exact ⟨c, cs, hc, .inl hd⟩
  | negSucc m => exact ⟨'-', (m.succ.repr).toList, by simp [Int.repr], .inr rfl⟩

def mark (c : Char) : Char := if c.isDigit ∨ c = '-' then '#' else c

/- A name that starts with a number is told by its sixth character from the end, any other by its
first two characters. -/
def kindOf (s : String) : Option Char × Option Char :=
  if s.toList.head?.map mark = some '#' then (some '#', s.toList.reverse[5]?)
  else (s.toList.head?.map mark, s.toList[1]?.map mark)

def kind : MetaPath → Option Char × Option Char
  | .versionHint => (some 'v', some 'e')
  | .metadataJson _ => (some 'v', some '#')
  | .manifest _ => (some '#', some '0')
  | .deleteManifest _ => (some '#', some 'l')
  | .manifestList _ => (some 's', some 'n')
  | .statistics _ => (some 's', some 't')
  | .partitionStatistics _ => (some 'p', some 'a')
  | .deletionVector _ => (some 'd', some 'v')
  | .equalityDelete _ => (some 'e', some 'q')
  | .commitLock => (some '.', some 'a')

theorem mark_eq_hash {c : Char} (h : c.isDigit ∨ c = '-') : mark c = '#' := if_pos h

theorem kindOf_name (p : MetaPath) : kindOf p.name = p.kind := by
  -- `name.eq_def` and not the equations per constructor: their proofs compare long texts.
  cases p with
  | versionHint => decide
  | commitLock => decide
  | metadataJson v =>
    obtain ⟨c,cs,hc,hd⟩ := head_repr_nat v
    simp [kindOf,name.eq_def,kind,hc,mark,hd]
  | manifest id =>
    obtain ⟨c,cs,hc,hd⟩ := head_repr_int id
    simp [kindOf,name.eq_def,kind,hc,mark_eq_hash hd]
  | deleteManifest id =>
    obtain ⟨c,cs,hc,hd⟩ := head_repr_int id
    simp [kindOf,name.eq_def,kind,hc,mark_eq_hash hd]
  | manifestList id => simp [kindOf,name.eq_def,kind,mark]
  | statistics id => simp [kindOf,name.eq_def,kind,mark]
  | partitionStatistics id => simp [kindOf,name.eq_def,kind,mark]
  | deletionVector id => simp [kindOf,name.eq_def,kind,mark]
  | equalityDelete id => simp [kindOf,name.eq_def,kind,mark]

theorem name_injective : Function.Injective name := by
  intro p q h
  have hk : p.kind = q.kind := by rw [← kindOf_name,← kindOf_name,h]
  cases p <;> cases q <;> simp only [kind,Prod.mk.injEq,Option.some.injEq,
    Char.reduceEq,and_true,and_false] at hk <;>
    simp_all only [name.eq_def,String.append_left_inj,String.append_right_inj,Int.repr_inj,
      Nat.repr_inj]

theorem render_injective (root : String) : Function.Injective (render root) := by
  intro p q h
  exact name_injective ((String.append_right_inj _).1 h)

end MetaPath

def isAbsolute (path : String) : Bool :=
  "/".toList <+: path.toList || "://".toList <:+: path.toList

/-- Data paths are made absolute in manifests when the warehouse is. -/
def absoluteDataPath (warehouse path : String) : String :=
  if isAbsolute path then path
  else if isAbsolute warehouse then warehouse ++ "/" ++ path
  else path

def tableRoot (warehouse tableNamespace tableName : String) : String :=
  if warehouse.isEmpty then tableNamespace ++ "/" ++ tableName
  else warehouse ++ "/" ++ tableNamespace ++ "/" ++ tableName

def trimEndSlashes (s : String) : String :=
  String.ofList (s.toList.reverse.dropWhile (· = '/')).reverse

/-- A table as its catalog sees it: the warehouse, its name, the root that its objects are under, and
how the store resolves a path. -/
structure Place where
  warehouse : String
  tableNamespace : String
  tableName : String
  root : String
  locate : String → String

namespace Place

def path (place : Place) (p : MetaPath) : String := p.render place.root

def key (place : Place) (p : MetaPath) : String := place.locate (place.path p)

@[simp] theorem locate_path (place : Place) (p : MetaPath) :
    place.locate (place.path p) = place.key p := rfl

end Place

/-- A table of the Hadoop catalog. Making a data path absolute does not change the object it names,
and no two metadata objects coincide. -/
structure Site extends Place where
  root_eq : root = tableRoot warehouse tableNamespace tableName
  name_trimmed : trimEndSlashes root = root
  locate_absolute : ∀ path, locate (absoluteDataPath warehouse path) = locate path
  locate_injective : Function.Injective fun p : MetaPath => locate (p.render root)

namespace Site

instance : Coe Site Place := ⟨Site.toPlace⟩

variable (site : Site)

@[simp] theorem key_inj {p q : MetaPath} : site.key p = site.key q ↔ p = q :=
  site.locate_injective.eq_iff

/-- A path outside of the table's metadata. -/
def IsData (path : String) : Prop := ∀ p, site.locate path ≠ site.key p

/-- A table under the root of a store that takes names as they are. -/
def plain (tableNamespace tableName : String)
    (h : trimEndSlashes (tableRoot "" tableNamespace tableName) =
      tableRoot "" tableNamespace tableName) : Site where
  warehouse := ""
  tableNamespace := tableNamespace
  tableName := tableName
  root := tableRoot "" tableNamespace tableName
  locate := id
  root_eq := rfl
  name_trimmed := h
  locate_absolute path := by simp [absoluteDataPath, isAbsolute]
  locate_injective := MetaPath.render_injective _

end Site
end AiLake
