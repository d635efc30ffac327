import AiLake.Hadoop

/-! A stored table as one value: the metadata, and for every snapshot the files and equality deletes
that its manifests list. Other objects do not change it. -/
namespace AiLake

open StoreProgram Option

@[ext] structure View where
  files : List DataFileEntry
  deletes : List EqualityDeleteFile
  deriving DecidableEq, Repr

section Reading

variable (site : Site) (objects : String → Option Object)

def manifestFiles (path : String) : Option (List DataFileEntry) :=
  match objects (site.locate path) with
  | some (.manifest entries) => some (readManifestFile entries)
  | _ => none

def manifestDeletes (path : String) : Option (List EqualityDeleteFile) :=
  match objects (site.locate path) with
  | some (.deleteManifest entries) => some (readEqualityDeleteManifest entries)
  | _ => none

def collect {α : Type} (content : Int) (read : String → Option (List α)) :
    List ManifestListEntry → Option (List α)
  | [] => some []
  | e :: rest =>
    if e.content ≠ content then collect content read rest
    else (read e.manifestPath).bind fun entries =>
      (collect content read rest).map fun more => entries ++ more

def viewOfList (entries : List ManifestListEntry) : Option View :=
  (collect 0 (manifestFiles site objects) entries).bind fun files =>
    (collect 1 (manifestDeletes site objects) entries).map fun deletes => ⟨files, deletes⟩

def viewOf (snap : IcebergSnapshot) : Option View :=
  match objects (site.locate snap.manifestList) with
  | some (.manifestList entries) => viewOfList site objects entries
  | _ => none

def versionOf : Nat :=
  match objects (site.key .versionHint) with
  | some (.versionHint version) => version.getD 1
  | some _ => 1
  | none => 0

end Reading

/-- Only metadata is kept under the names of metadata, from version 1 on. -/
structure MetadataNames (site : Site) (objects : String → Option Object) : Prop where
  hint : ∀ o, objects (site.key .versionHint) = some o → ∃ version, o = .versionHint version
  versions : ∀ v o, objects (site.key (.metadataJson v)) = some o → ∃ m, o = .metadata m
  fromOne : objects (site.key (.metadataJson 0)) = none

/-- The store holds a table with this metadata, whose snapshots list these views. The catalog keeps
the current snapshot the last one. -/
structure Stored (site : Site) (objects : String → Option Object) (m : IcebergMetadata)
    (views : List View) : Prop extends MetadataNames site objects where
  metadata : objects (site.key (.metadataJson (versionOf site objects))) = some (.metadata m)
  views : m.snapshots.map (viewOf site objects) = views.map some
  current : m.currentSnapshotId = m.snapshots.getLast?.map (·.snapshotId)
  distinct : (m.snapshots.map (·.snapshotId)).Nodup

/-- The objects that a commit of this snapshot writes, metadata aside. -/
def commitPaths (id : SnapshotId) : List MetaPath :=
  [.manifest id, .deleteManifest id, .manifestList id, .statistics id, .partitionStatistics id]

/-- No snapshot has this id yet, and no object is stored under its names. -/
structure FreshSnapshot (site : Site) (objects : String → Option Object) (m : IcebergMetadata)
    (id : SnapshotId) : Prop where
  unused : id ∉ m.snapshots.map (·.snapshotId)
  absent : ∀ p ∈ commitPaths id, objects (site.key p) = none

def Object.isManifest : Object → Bool
  | .manifestList _ | .manifest _ | .deleteManifest _ => true
  | _ => false

def KeepsManifests (objects objects' : String → Option Object) : Prop :=
  ∀ k o, objects k = some o → o.isManifest → objects' k = some o

section Mono

variable {site : Site} {objects objects' : String → Option Object}

theorem manifestFiles_mono (h : KeepsManifests objects objects') {path : String}
    {files : List DataFileEntry} (hf : manifestFiles site objects path = some files) :
    manifestFiles site objects' path = some files := by
  unfold manifestFiles at hf ⊢
  split at hf
  · rename_i entries ho
    rw [h _ _ ho rfl]
    exact hf
  · cases hf

theorem manifestDeletes_mono (h : KeepsManifests objects objects') {path : String}
    {deletes : List EqualityDeleteFile} (hd : manifestDeletes site objects path = some deletes) :
    manifestDeletes site objects' path = some deletes := by
  unfold manifestDeletes at hd ⊢
  split at hd
  · rename_i entries ho
    rw [h _ _ ho rfl]
    exact hd
  · cases hd

theorem collect_mono {α : Type} {content : Int} {read read' : String → Option (List α)}
    (h : ∀ path l, read path = some l → read' path = some l) {entries : List ManifestListEntry}
    {l : List α} (hc : collect content read entries = some l) :
    collect content read' entries = some l := by
  induction entries generalizing l with
  | nil => exact hc
  | cons e rest ih =>
    rw [collect] at hc ⊢
    split at hc
    · rw [if_pos ‹_›]
      exact ih hc
    · rw [if_neg ‹_›]
      obtain ⟨first,hfirst,hrest⟩ := bind_eq_some_iff.1 hc
      obtain ⟨more,hmore,rfl⟩ := map_eq_some_iff.1 hrest
      rw [h _ _ hfirst,bind_some,ih hmore,map_some]

theorem viewOfList_eq_some {entries : List ManifestListEntry} {v : View} :
    viewOfList site objects entries = some v ↔
      collect 0 (manifestFiles site objects) entries = some v.files ∧
      collect 1 (manifestDeletes site objects) entries = some v.deletes := by
  simp only [viewOfList,bind_eq_some_iff,map_eq_some_iff]
  constructor
  · rintro ⟨files,hf,deletes,hd,rfl⟩
    exact ⟨hf,hd⟩
  · rintro ⟨hf,hd⟩
    exact ⟨_,hf,_,hd,rfl⟩

theorem viewOf_mono (h : KeepsManifests objects objects') {snap : IcebergSnapshot} {v : View}
    (hv : viewOf site objects snap = some v) : viewOf site objects' snap = some v := by
  unfold viewOf at hv ⊢
  split at hv
  · rename_i entries ho
    rw [h _ _ ho rfl]
    rw [viewOfList_eq_some] at hv
    exact viewOfList_eq_some.2 ⟨collect_mono (fun _ _ => manifestFiles_mono h) hv.1,
      collect_mono (fun _ _ => manifestDeletes_mono h) hv.2⟩
  · cases hv

end Mono

end AiLake
