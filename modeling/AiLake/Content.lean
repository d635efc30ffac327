import AiLake.Writer
import AiLake.Delete
import AiLake.Listing

/-! What a snapshot's readers get: the rows that deletion vectors and equality deletes leave of the
live files. `TableOf` ties it to the store. -/
namespace AiLake

open StoreProgram

/-- A live file, with its object and the positions that its deletion vector hides. -/
structure LiveFile where
  entry : DataFileEntry
  file : DataFile
  bitmap : Bitmap

structure LiveDelete where
  entry : EqualityDeleteFile
  payload : EqualityDeleteAvro

@[ext] structure Content where
  files : List LiveFile
  deletes : List LiveDelete

/-- The rows that the deletion vector leaves, in order. -/
def LiveFile.kept (f : LiveFile) : List Row :=
  (f.file.batch.filterRows fun i _ => !f.bitmap.hides i).rows

namespace Content

variable (tx : TextForms)

def filter (c : Content) : EqualityDeleteFilter :=
  .ofFiles tx (c.deletes.map fun d => (d.entry.sequenceNumber, d.payload))

def masks (c : Content) (f : LiveFile) (r : Row) : Bool :=
  (c.filter tx).deletes tx f.file.batch.schema r f.entry.sequenceNumber

def visibleIn (c : Content) (f : LiveFile) : List Row := f.kept.filter fun r => !c.masks tx f r

def visible (c : Content) : List Row := c.files.flatMap (c.visibleIn tx)

/-- No equality delete takes a row that the deletion vectors leave. -/
def Unmasked (c : Content) : Prop := ∀ f ∈ c.files, ∀ r ∈ f.kept, c.masks tx f r = false

variable {tx}

theorem visibleIn_of_unmasked {c : Content} (h : c.Unmasked tx) {f : LiveFile} (hf : f ∈ c.files) :
    c.visibleIn tx f = f.kept := by
  refine List.filter_eq_self.2 fun r hr => ?_
  rw [h f hf r hr]
  rfl

theorem visible_of_unmasked {c : Content} (h : c.Unmasked tx) :
    c.visible tx = c.files.flatMap (·.kept) :=
  List.flatMap_congr fun _ hf => visibleIn_of_unmasked h hf

theorem masks_of_no_deletes {c : Content} (h : c.deletes = []) (f : LiveFile) (r : Row) :
    c.masks tx f r = false := by
  simp [masks,filter,h,EqualityDeleteFilter.ofFiles,EqualityDeleteFilter.deletes]

theorem unmasked_of_no_deletes {c : Content} (h : c.deletes = []) : c.Unmasked tx :=
  fun f _ r _ => masks_of_no_deletes h f r

theorem masks_append (files : List LiveFile) (deletes more : List LiveDelete) (f : LiveFile)
    (r : Row) : Content.masks tx ⟨files, deletes ++ more⟩ f r =
      (Content.masks tx ⟨files, deletes⟩ f r || Content.masks tx ⟨files, more⟩ f r) := by
  simp [masks,filter,EqualityDeleteFilter.ofFiles,EqualityDeleteFilter.deletes]

end Content

def withEntries (files : List LiveFile) (entries : List DataFileEntry) : List LiveFile :=
  List.zipWith (fun f e => { f with entry := e }) files entries

section Stored

variable (site : Site) (objects : String → Option Object)

/-- The bitmap that `load_deletion_vector` gets. -/
def bitmapOf : Option DeletionVector → Option Bitmap
  | none => some ∅
  | some dv =>
    match objects (site.locate dv.path) with
    | some (.puffin blobs) =>
      (blobs.find? fun b => b.offset = dv.offset ∧ b.length = dv.length).map (·.bitmap)
    | _ => none

structure LiveFile.Stored (f : LiveFile) : Prop where
  data : objects (site.locate f.entry.path) = some (.dataFile f.file)
  vector : bitmapOf site objects f.entry.deletionVector = some f.bitmap

def liveFileOf (e : DataFileEntry) : Option LiveFile :=
  match objects (site.locate e.path) with
  | some (.dataFile file) => (bitmapOf site objects e.deletionVector).map fun b => ⟨e, file, b⟩
  | _ => none

def liveDeleteOf (d : EqualityDeleteFile) : Option LiveDelete :=
  match objects (site.locate d.path) with
  | some (.equalityDelete payload) => some ⟨d, payload⟩
  | _ => none

def contentOf (v : View) : Option Content :=
  (v.files.mapM (liveFileOf site objects)).bind fun files =>
    (v.deletes.mapM (liveDeleteOf site objects)).map fun deletes => ⟨files, deletes⟩

def currentMetadata : Option IcebergMetadata :=
  match objects (site.key (.metadataJson (versionOf site objects))) with
  | some (.metadata m) => some m
  | _ => none

def currentView (m : IcebergMetadata) : Option View :=
  match m.currentSnapshotId with
  | none => some ⟨[], []⟩
  | some id => (m.snapshots.find? fun snap => snap.snapshotId = id).bind (viewOf site objects)

/-- The content of the current snapshot, when all of its objects can be read. -/
def currentContent : Option Content :=
  (currentMetadata site objects).bind fun m =>
    (currentView site objects m).bind (contentOf site objects)

/-- The view lists this content. Two files never share an object. -/
structure Holds (v : View) (c : Content) : Prop where
  files : v.files = c.files.map (·.entry)
  deletes : v.deletes = c.deletes.map (·.entry)
  live : ∀ f ∈ c.files, f.Stored site objects
  payload : ∀ d ∈ c.deletes,
    objects (site.locate d.entry.path) = some (.equalityDelete d.payload)
  apart : (c.files.map fun f => site.locate f.entry.path).Nodup

end Stored

/-- A store whose calls succeed and that holds a table, with the content of its current snapshot. -/
structure TableOf (site : Site) (w : Store) (m : IcebergMetadata) (views : List View)
    (c : Content) : Prop where
  reliable : w.Reliable
  stored : Stored site w.objects m views
  location : m.location = site.root
  holds : Holds site w.objects (lastView views) c

section Current

variable {site : Site} {objects : String → Option Object} {m : IcebergMetadata}
  {views : List View} {c : Content}

theorem mapM_eq_some_of_map {α β : Type} {g : β → α} {read : α → Option β} {l : List β}
    (h : ∀ b ∈ l, read (g b) = some b) : (l.map g).mapM read = some l := by
  induction l with
  | nil => rfl
  | cons b rest ih =>
    rw [List.map_cons,List.mapM_cons,h b List.mem_cons_self,
      ih fun b' hb' => h b' (List.mem_cons_of_mem _ hb')]
    rfl

theorem Holds.contentOf {v : View} (h : Holds site objects v c) :
    contentOf site objects v = some c := by
  have hfiles : v.files.mapM (liveFileOf site objects) = some c.files := by
    rw [h.files]
    refine mapM_eq_some_of_map fun f hf => ?_
    simp [liveFileOf,(h.live f hf).data,(h.live f hf).vector]
  have hdeletes : v.deletes.mapM (liveDeleteOf site objects) = some c.deletes := by
    rw [h.deletes]
    refine mapM_eq_some_of_map fun d hd => ?_
    simp [liveDeleteOf,h.payload d hd]
  simp [AiLake.contentOf,hfiles,hdeletes]

theorem Stored.currentMetadata (h : Stored site objects m views) :
    currentMetadata site objects = some m := by
  simp [AiLake.currentMetadata,h.metadata]

theorem Stored.currentView (h : Stored site objects m views) :
    currentView site objects m = some (lastView views) := by
  unfold AiLake.currentView
  rw [h.current]
  cases hl : m.snapshots.getLast? with
  | none => simp [h.lastView_of_none hl]
  | some snap =>
    simp only [Option.map_some]
    rw [find?_eq_of_nodup h.distinct (List.mem_of_getLast? hl),Option.bind_some,h.viewOf_last hl]

theorem TableOf.currentContent {w : Store} (h : TableOf site w m views c) :
    currentContent site w.objects = some c := by
  simp [AiLake.currentContent,h.stored.currentMetadata,h.stored.currentView,h.holds.contentOf]

end Current

/-- Data files, deletion vectors and equality deletes. -/
def Object.isContent : Object → Bool
  | .dataFile _ | .puffin _ | .equalityDelete _ => true
  | _ => false

def KeepsContent (objects objects' : String → Option Object) : Prop :=
  ∀ k o, objects k = some o → o.isContent → objects' k = some o

section Mono

variable {site : Site} {objects objects' : String → Option Object}

theorem bitmapOf_mono (h : KeepsContent objects objects') {dv : Option DeletionVector}
    {bitmap : Bitmap} (hb : bitmapOf site objects dv = some bitmap) :
    bitmapOf site objects' dv = some bitmap := by
  cases dv with
  | none => exact hb
  | some dv =>
    unfold bitmapOf at hb ⊢
    simp only at hb ⊢
    split at hb
    · rename_i blobs ho
      rw [h _ _ ho rfl]
      exact hb
    · cases hb

theorem LiveFile.Stored.mono (h : KeepsContent objects objects') {f : LiveFile}
    (hf : f.Stored site objects) : f.Stored site objects' :=
  ⟨h _ _ hf.data rfl, bitmapOf_mono h hf.vector⟩

theorem Holds.mono (h : KeepsContent objects objects') {v : View} {c : Content}
    (hv : Holds site objects v c) : Holds site objects' v c where
  files := hv.files
  deletes := hv.deletes
  live f hf := (hv.live f hf).mono h
  payload d hd := h _ _ (hv.payload d hd) rfl
  apart := hv.apart

end Mono
end AiLake
