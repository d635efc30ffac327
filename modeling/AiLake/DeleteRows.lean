import AiLake.TableHistory

/-! `delete_rows` on a store whose calls may fail. It is right when the first file that matches the
path is the named one, its deletion vector is read, and the commit restates the rest of the snapshot
as it was. -/
namespace AiLake

open StoreProgram List Prog Option

variable {site : Site} {fmt : FileFormat} {m : IcebergMetadata} {views : List View} {w w' : Store}
  {snapshotId : SnapshotId} {nowMs : Int}

section Reads

theorem iterate_tick_objects (n : Nat) (w : Store) : (World.tick^[n] w).objects = w.objects := by
  induction n generalizing w with
  | zero => rfl
  | succ n ih => exact ih w.tick

theorem iterate_tick_faults (n k : Nat) (w : Store) :
    (World.tick^[n] w).faults k = w.faults (k + n) := by
  induction n generalizing w with
  | zero => rfl
  | succ n ih =>
    rw [Function.iterate_succ_apply,ih,World.tick_faults,Nat.add_assoc]

theorem run_getManifest_ok {path : String} {files : List DataFileEntry}
    (h : (getManifest site path).run w = (.ok files, w')) :
    manifestFiles site w.objects path = some files ∧ w' = w.tick := by
  obtain ⟨o,w₁,h₁,h⟩ := run_bind_ok.1 h
  obtain ⟨ho,rfl⟩ := run_getObject_ok h₁
  cases o with
  | manifest entries =>
    cases h
    exact ⟨by rw [manifestFiles,ho], rfl⟩
  | _ => cases h

theorem run_readManifests_ok {content : Int} {entries : List ManifestListEntry}
    {files : List DataFileEntry}
    (h : (readManifests content (getManifest site) entries).run w = (.ok files, w')) :
    collect content (manifestFiles site w.objects) entries = some files ∧
      w' = World.tick^[entries.countP (·.content = content)] w := by
  induction entries generalizing w w' files with
  | nil =>
    cases h
    exact ⟨rfl,rfl⟩
  | cons e rest ih =>
    rw [readManifests] at h
    rw [collect]
    by_cases hc : e.content = content
    · rw [if_neg (not_not.2 hc)] at h ⊢
      obtain ⟨first,w₁,h₁,h⟩ := run_bind_ok.1 h
      obtain ⟨hfirst,rfl⟩ := run_getManifest_ok h₁
      obtain ⟨more,w₂,h₂,h⟩ := run_bind_ok.1 h
      obtain ⟨hmore,hw₂⟩ := ih h₂
      have hmore' : collect content (manifestFiles site w.objects) rest = some more := hmore
      cases h
      rw [hfirst,bind_some,hmore',map_some,countP_cons_of_pos (by simp [hc]),
        Function.iterate_succ_apply,← hw₂]
      exact ⟨rfl,rfl⟩
    · rw [if_pos hc] at h ⊢
      rw [countP_cons_of_neg (by simp [hc])]
      exact ih h

/-- The calls of a listing: the hint, the metadata, the manifest list and its data manifests. -/
def listCalls (site : Site) (objects : String → Option Object) (m : IcebergMetadata) : Nat :=
  match m.snapshots.getLast? with
  | none => 2
  | some snap =>
    match objects (site.locate snap.manifestList) with
    | some (.manifestList entries) => 3 + entries.countP (·.content = 0)
    | _ => 3

theorem run_listFiles_ok (hst : Stored site w.objects m views) {files : List DataFileEntry}
    (h : (listFiles site none).run w = (.ok files, w')) :
    files = (lastView views).files ∧ w' = World.tick^[listCalls site w.objects m] w := by
  obtain ⟨m₀,w₁,h₁,h⟩ := run_bind_ok.1 h
  obtain ⟨rfl,rfl⟩ := run_loadRawMetadata_ok hst h₁
  unfold listFilesFromMetadata listFromMetadata at h
  rw [none_or,hst.current] at h
  unfold listCalls
  cases hl : m₀.snapshots.getLast? with
  | none =>
    rw [hl] at h
    cases h
    exact ⟨by rw [hst.lastView_of_none hl], rfl⟩
  | some snap =>
    simp only [hl,map_some,
      find?_eq_of_nodup hst.distinct (mem_of_getLast? hl)] at h
    obtain ⟨entries,hlist,hfiles,-⟩ := viewOf_eq_some (hst.viewOf_last hl)
    obtain ⟨manifests,w₂,h₂,h⟩ := run_bind_ok.1 h
    obtain ⟨o,w₃,h₃,h₂⟩ := run_bind_ok.1 h₂
    obtain ⟨ho,rfl⟩ := run_getObject_ok h₃
    rw [World.tick_objects,World.tick_objects,hlist] at ho
    cases ho
    cases h₂
    obtain ⟨hcollect,rfl⟩ := run_readManifests_ok h
    refine ⟨Option.some.inj (hcollect.symm.trans hfiles), ?_⟩
    simp only [hlist]
    rw [Nat.add_comm,Function.iterate_add_apply]
    rfl

/-- The call of `delete_rows` that reads the old deletion vector. -/
def vectorCall (site : Site) (objects : String → Option Object) (m : IcebergMetadata) : Nat :=
  2 + listCalls site objects m

/-- What the store gives for a deletion vector: nothing when the next call fails. -/
def loadedBitmap (site : Site) (w : Store) (dv : Option DeletionVector) : Option Bitmap :=
  if dv.isSome ∧ w.faults 0 then none else bitmapOf site w.objects dv

theorem run_existingBitmap_ok {dv : Option DeletionVector} {bitmap : Bitmap}
    (h : (existingBitmap site dv).run w = (.ok bitmap, w')) :
    bitmap = (loadedBitmap site w dv).getD ∅ ∧ w'.objects = w.objects := by
  cases dv with
  | none =>
    cases h
    exact ⟨rfl,rfl⟩
  | some dv =>
    simp only [existingBitmap,loadDeletionVector,run_bind,run_attempt,
      run_getObject] at h
    simp only [loadedBitmap,bitmapOf,isSome_some,true_and]
    cases hf : w.faults 0 with
    | true =>
      simp only [hf,if_true] at h
      cases h
      exact ⟨rfl,rfl⟩
    | false =>
      simp only [hf,Bool.false_eq_true,if_false] at h ⊢
      rcases ho : w.objects (site.locate dv.path) with _ | o
      · simp only [ho] at h
        cases h
        exact ⟨rfl,rfl⟩
      · cases o with
        | puffin blobs =>
          simp only [ho] at h ⊢
          rcases hb : blobs.find? fun b => b.offset = dv.offset ∧ b.length = dv.length with _ | b
          · simp only [hb] at h ⊢
            cases h
            exact ⟨rfl,rfl⟩
          · simp only [hb] at h ⊢
            cases h
            exact ⟨rfl,rfl⟩
        | _ =>
          simp only [ho] at h
          cases h
          exact ⟨rfl,rfl⟩

end Reads

section Commit

variable {filePath : String} {rowIds : List UInt32}

/-- The files with one more deletion vector, as they are handed to the commit. -/
def withVector (files : List DataFileEntry) (i : Nat) (dv : DeletionVector) : List DataFileEntry :=
  files.modify i fun f => { f with deletionVector := some dv }

/-- What `delete_rows` leaves when it reports success, under any pattern of failing calls. -/
theorem run_deleteRows_ok (hst : Stored site w.objects m views) (hloc : m.location = site.root)
    (hfresh : FreshCommit site w.objects m snapshotId) (hne : rowIds ≠ []) {u : Unit}
    (h : (deleteRows site fmt filePath rowIds snapshotId nowMs).run w = (.ok u, w')) :
    ∃ i e dv m', findTarget filePath (lastView views).files = some i ∧
      (lastView views).files[i]? = some e ∧ dv.path = site.path (.deletionVector snapshotId) ∧
      bitmapOf site w'.objects (some dv) = some (insertRows ((loadedBitmap site
        (World.tick^[vectorCall site w.objects m] w) e.deletionVector).getD ∅) rowIds) ∧
      KeepsContent w.objects w'.objects ∧
      Stored site w'.objects m' (views ++ [⟨committedEntries site m
        (withVector (lastView views).files i dv), []⟩]) := by
  unfold deleteRows at h
  rw [if_neg (by simpa using hne)] at h
  obtain ⟨table,w₁,h₁,h⟩ := run_bind_ok.1 h
  obtain ⟨m₀,w₀,h₀,h₁⟩ := run_bind_ok.1 h₁
  obtain ⟨rfl,rfl⟩ := run_loadRawMetadata_ok hst h₀
  cases h₁
  split at h
  · cases h
  obtain ⟨files,w₂,h₂,h⟩ := run_bind_ok.1 h
  obtain ⟨rfl,rfl⟩ := run_listFiles_ok (w := w.tick.tick) hst h₂
  split at h
  · cases h
  rename_i i hi
  obtain ⟨hlt,-⟩ := findIdx?_eq_some_iff_getElem.1 hi
  have he := getElem?_eq_getElem hlt
  have hticks : World.tick^[listCalls site w.tick.tick.objects m₀] w.tick.tick =
      World.tick^[vectorCall site w.objects m₀] w := by
    rw [vectorCall,Nat.add_comm,Function.iterate_add_apply]
    rfl
  rw [hticks] at h
  generalize hw₃ : World.tick^[vectorCall site w.objects m₀] w = w₃ at h
  have hobj₃ : w₃.objects = w.objects := hw₃ ▸ iterate_tick_objects _ w
  obtain ⟨existing,w₄,h₄,h⟩ := run_bind_ok.1 h
  rw [he,bind_some] at h₄
  obtain ⟨rfl,hobj₄⟩ := run_existingBitmap_ok h₄
  dsimp only at h
  generalize hbitmap : insertRows _ rowIds = bitmap at h
  generalize hdv : deletionVectorFor fmt m₀.toTableMetadata snapshotId bitmap = dv at h
  have hpath : dv.path = site.path (.deletionVector snapshotId) := by
    have hroot : m₀.toTableMetadata.location = site.root := hloc
    rw [← hdv,deletionVectorFor,hroot,site.name_trimmed,Place.path]
  obtain ⟨_,w₅,h₅,h⟩ := run_bind_ok.1 h
  have hw₅ := run_putObject_ok h₅
  rw [hpath,site.locate_path] at hw₅
  have hobj₅ : w₅.objects = Function.update w.objects (site.key (.deletionVector snapshotId))
      (some (.puffin [⟨dv.offset,dv.length,bitmap⟩])) := by
    rw [hw₅,← hobj₃,← hobj₄]
    rfl
  obtain ⟨id,w₆,h₆,h⟩ := run_bind_ok.1 h
  cases h
  -- the deletion vector is stored outside of the metadata, under a name that is new
  have hst₅ : Stored site w₅.objects m₀ views :=
    hobj₅ ▸ hst.update ⟨by simp, by simp⟩ (by simp [hfresh.vector]) _
  have hfresh₅ : FreshSnapshot site w₅.objects m₀ snapshotId :=
    hobj₅ ▸ hfresh.toFreshSnapshot.update (by simp [commitPaths]) _
  obtain ⟨stats,pstats,-,hst',hoff,-,-⟩ := run_commitSnapshot_ok hst₅ hfresh₅ h₆
  have hkeeps : KeepsContent w.objects w₅.objects :=
    hobj₅ ▸ keepsContent_update (by simp [hfresh.vector])
  have hkeeps' := keepsContent_of_commit hst₅ hfresh₅ hoff
  refine ⟨i, _, dv, _, hi, he, hpath, ?_, fun k o ho hc => hkeeps' k o (hkeeps k o ho hc) hc, hst'⟩
  refine bitmapOf_mono hkeeps' ?_
  rw [hbitmap,hobj₅]
  simp only [bitmapOf]
  rw [hpath,site.locate_path,Function.update_self]
  simp

end Commit

section Entries

/-- An entry without the sequence number, which every commit stamps on all that it writes. -/
def DataFileEntry.unstamped (e : DataFileEntry) : DataFileEntry := { e with sequenceNumber := 0 }

/-- A commit writes the entry as it was read: the path stays, it has its row ids, and the manifest
gives back what it was given. -/
def Settled (site : Site) (m : IcebergMetadata) (e : DataFileEntry) : Prop :=
  absoluteDataPath site.warehouse e.path = e.path ∧ e.firstRowId.isSome ∧
    e.stamped m.partitionSpec e.sequenceNumber = e

/-- How a V3 commit restates an entry; row ids are assigned only to a file that has none. -/
def Restated (site : Site) (m : IcebergMetadata) (e e' : DataFileEntry) : Prop :=
  ∃ r, e' = ({ e with
    path := absoluteDataPath site.warehouse e.path
    firstRowId := some (e.firstRowId.getD r) } : DataFileEntry).stamped m.partitionSpec
      (m.lastSequenceNumber + 1)

theorem forall₂_assignRowIds_getD (next : Int) (files : List DataFileEntry) :
    List.Forall₂ (fun e e' => ∃ r, e' = { e with firstRowId := some (e.firstRowId.getD r) }) files
      (assignRowIds next files).2 := by
  induction files generalizing next with
  | nil => exact .nil
  | cons f rest ih =>
    cases h : f.firstRowId with
    | none =>
      simp only [assignRowIds,h]
      exact .cons ⟨next, by rw [h,getD_none]⟩ (ih _)
    | some r =>
      simp only [assignRowIds,h]
      refine .cons ⟨r,?_⟩ (ih next)
      rw [h,getD_some,← h]

theorem forall₂_restated (hv3 : 3 ≤ m.formatVersion) (files : List DataFileEntry) :
    List.Forall₂ (Restated site m) files (committedEntries site m files) := by
  unfold committedEntries committedFiles
  rw [if_pos hv3,forall₂_map_right_iff]
  have h := forall₂_assignRowIds_getD m.nextRowId
    (files.map fun f => { f with path := absoluteDataPath site.warehouse f.path })
  rw [forall₂_map_left_iff] at h
  refine h.imp fun e e' he => ?_
  obtain ⟨r,rfl⟩ := he
  exact ⟨r,rfl⟩

theorem Restated.deletionVector {e e' : DataFileEntry} (h : Restated site m e e') :
    e'.deletionVector = e.deletionVector := by
  obtain ⟨r,rfl⟩ := h
  rfl

theorem Restated.unstamped_eq_iff {e e' : DataFileEntry} (h : Restated site m e e') :
    e'.unstamped = e.unstamped ↔ Settled site m e := by
  obtain ⟨r,rfl⟩ := h
  cases e with
  | mk path _ _ _ _ _ _ _ _ _ _ _ _ _ _ _ firstRowId _ _ =>
    cases firstRowId with
    | none => simp [Settled,DataFileEntry.unstamped,DataFileEntry.stamped]
    | some id =>
      simp only [Settled,DataFileEntry.unstamped,DataFileEntry.stamped,DataFileEntry.mk.injEq,
        getD_some,isSome_some,true_and,and_true]

variable {files : List DataFileEntry} {i j : Nat} {dv : DeletionVector} {f f' : DataFileEntry}

theorem restated_of_getElem? (hv3 : 3 ≤ m.formatVersion) (hf : files[j]? = some f)
    (hf' : (committedEntries site m files)[j]? = some f') : Restated site m f f' := by
  obtain ⟨hj,rfl⟩ := List.getElem?_eq_some_iff.1 hf
  obtain ⟨hj',rfl⟩ := List.getElem?_eq_some_iff.1 hf'
  exact (forall₂_restated hv3 files).get hj hj'

theorem withVector_self (hf : files[i]? = some f) :
    (withVector files i dv)[i]? = some { f with deletionVector := some dv } := by
  rw [withVector,getElem?_modify_eq,hf]
  rfl

theorem withVector_of_ne (hne : j ≠ i) (hf : files[j]? = some f) :
    (withVector files i dv)[j]? = some f := by
  simp [withVector,hne.symm,hf]

variable (site) in
theorem length_committed_withVector (hv3 : 3 ≤ m.formatVersion) (files : List DataFileEntry)
    (i : Nat) (dv : DeletionVector) :
    (committedEntries site m (withVector files i dv)).length = files.length := by
  have hrestated : List.Forall₂ (Restated site m) _ _ :=
    forall₂_restated hv3 (withVector files i dv)
  rw [← hrestated.length_eq,withVector,length_modify]

variable (site) in
theorem exists_committed_withVector (hv3 : 3 ≤ m.formatVersion) (i : Nat) (dv : DeletionVector)
    (hf : files[j]? = some f) :
    ∃ f', (committedEntries site m (withVector files i dv))[j]? = some f' := by
  have hlt : j < (committedEntries site m (withVector files i dv)).length := by
    rw [length_committed_withVector site hv3]
    exact (List.getElem?_eq_some_iff.1 hf).1
  exact ⟨_, getElem?_eq_getElem hlt⟩

end Entries

section Deletion

variable (site : Site) (filePath : String) (rowIds : List UInt32)

def Lists (objects : String → Option Object) (m : IcebergMetadata) (v : View) : Prop :=
  currentMetadata site objects = some m ∧ currentView site objects m = some v

/-- The path names this file: it is the file's path, or no file has this path and the file is the
only one whose path ends with it. -/
def PathNames (files : List DataFileEntry) (i : Nat) (e : DataFileEntry) : Prop :=
  e.path = filePath ∨ (∀ f ∈ files, f.path ≠ filePath) ∧ filePath.toList <:+ e.path.toList ∧
    ∀ j f, files[j]? = some f → filePath.toList <:+ f.path.toList → j = i

/-- The named file has a new deletion vector, which hides what the old one hides and the given
positions; the rest of the snapshot is as it was. -/
structure OneFileGrew (objects objects' : String → Option Object) (v v' : View) (i : Nat)
    (e e' : DataFileEntry) : Prop where
  before : v.files[i]? = some e
  after : v'.files[i]? = some e'
  named : PathNames filePath v.files i e
  changed : e'.deletionVector ≠ e.deletionVector
  grown : ∃ old, bitmapOf site objects e.deletionVector = some old ∧
    bitmapOf site objects' e'.deletionVector = some (old ∪ (rowIds.map UInt32.toNat).toFinset)
  length : v'.files.length = v.files.length
  others : ∀ j f f', j ≠ i → v.files[j]? = some f → v'.files[j]? = some f' →
    f'.unstamped = f.unstamped ∧ ∀ b, bitmapOf site objects f.deletionVector = some b →
      bitmapOf site objects' f'.deletionVector = some b
  deletes : v'.deletes = v.deletes

/-- What a successful `delete_rows` should have done between two states of the store. The old
deletion vector was read. -/
def RowsDeleted (w w' : Store) : Prop :=
  ∃ m v m' v' i e e', Lists site w.objects m v ∧ Lists site w'.objects m' v' ∧
    OneFileGrew site filePath rowIds w.objects w'.objects v v' i e e' ∧
    (e.deletionVector.isSome → w.faults (vectorCall site w.objects m) = false)

/-- When it does: the first match is the named file, its deletion vector is there and is read, and a
Replace commit has nothing else to change. -/
def SparesOthers (w : Store) : Prop :=
  rowIds ≠ [] ∧ ∃ m v i e, Lists site w.objects m v ∧ v.files[i]? = some e ∧
    findTarget filePath v.files = some i ∧ PathNames filePath v.files i e ∧
    (bitmapOf site w.objects e.deletionVector).isSome ∧
    (e.deletionVector.isSome → w.faults (vectorCall site w.objects m) = false) ∧
    (∀ j f, j ≠ i → v.files[j]? = some f → Settled site m f) ∧ v.deletes = []

end Deletion

section Deletion

variable {filePath : String} {rowIds : List UInt32}

theorem Stored.lists (hst : Stored site w.objects m views) :
    Lists site w.objects m (lastView views) := ⟨hst.currentMetadata,hst.currentView⟩

theorem Lists.unique {objects : String → Option Object} {m m' : IcebergMetadata} {v v' : View}
    (h : Lists site objects m v) (h' : Lists site objects m' v') : m = m' ∧ v = v' := by
  obtain rfl : m = m' := Option.some.inj (h.1.symm.trans h'.1)
  exact ⟨rfl, Option.some.inj (h.2.symm.trans h'.2)⟩

theorem insertRows_eq_union (bitmap : Bitmap) (rowIds : List UInt32) :
    insertRows bitmap rowIds = bitmap ∪ (rowIds.map UInt32.toNat).toFinset := by
  ext i
  simp [mem_insertRows]

/-! Runs on a small table. -/

def demoListing (paths : List String) : Store :=
  ((commitSnapshot demoSite (demoAppend 1 (paths.map (demoFile · 3))) 0).run (demoTable 3)).2

def demoDelete (path : String) (rowIds : List UInt32) (id : SnapshotId) (w : Store) :
    Except AilakeError Unit × Store :=
  (deleteRows demoSite demoFormat path rowIds id 0).run w

/-- The deleted sets that the current snapshot lists, file by file. -/
def deletedSets (site : Site) (objects : String → Option Object) :
    Option (List (String × Option Bitmap)) :=
  (currentMetadata site objects).bind fun m => (currentView site objects m).map fun v =>
    v.files.map fun f => (f.path, bitmapOf site objects f.deletionVector)

theorem Lists.deletedSets {objects : String → Option Object} {v : View}
    (h : Lists site objects m v) : deletedSets site objects =
      some (v.files.map fun f => (f.path, bitmapOf site objects f.deletionVector)) := by
  simp [AiLake.deletedSets,h.1,h.2]

theorem RowsDeleted.exists_deletedSets (h : RowsDeleted site filePath rowIds w w')
    {before after : List (String × Option Bitmap)}
    (hbefore : deletedSets site w.objects = some before)
    (hafter : deletedSets site w'.objects = some after) :
    ∃ (i : Nat) (p p' : String × Option Bitmap), before[i]? = some p ∧ after[i]? = some p' ∧
      (p.1 = filePath ∨ ∀ q ∈ before, q.1 ≠ filePath) ∧
      ∃ old, p.2 = some old ∧ p'.2 = some (old ∪ (rowIds.map UInt32.toNat).toFinset) := by
  obtain ⟨m,v,m',v',i,e,e',hv,hv',hgrew,-⟩ := h
  obtain rfl := Option.some.inj (hbefore.symm.trans hv.deletedSets)
  obtain rfl := Option.some.inj (hafter.symm.trans hv'.deletedSets)
  refine ⟨i, (e.path, bitmapOf site w.objects e.deletionVector),
    (e'.path, bitmapOf site w'.objects e'.deletionVector), ?_, ?_, ?_, hgrew.grown⟩
  · rw [getElem?_map,hgrew.before,map_some]
  · rw [getElem?_map,hgrew.after,map_some]
  · refine hgrew.named.imp id fun h => ?_
    simpa using h.1

def demoCurrent (w : Store) : IcebergMetadata :=
  (currentMetadata demoSite w.objects).getD (demoMetadata 3)

def demoView (w : Store) : View :=
  (currentView demoSite w.objects (demoCurrent w)).getD ⟨[], []⟩

theorem sparesOthers_suffix :
    SparesOthers demoSite "b.parquet" [1] (demoListing ["data/a.parquet", "data/b.parquet"]) := by
  generalize hw : demoListing ["data/a.parquet","data/b.parquet"] = w
  have hlists : Lists demoSite w.objects (demoCurrent w) (demoView w) := by
    subst hw
    exact ⟨by decide +kernel, by decide +kernel⟩
  have hpaths : (demoView w).files.map (·.path) = ["data/a.parquet","data/b.parquet"] := by
    subst hw
    decide +kernel
  have hvectors : ∀ f ∈ (demoView w).files, f.deletionVector = none := by
    subst hw
    decide +kernel
  have hsettled : ∀ f ∈ (demoView w).files, Settled demoSite (demoCurrent w) f := by
    subst hw
    unfold Settled
    decide +kernel
  have htarget : findTarget "b.parquet" (demoView w).files = some 1 := by
    subst hw
    decide +kernel
  have hdeletes : (demoView w).deletes = [] := by
    subst hw
    decide +kernel
  have hpath {j : Nat} {f : DataFileEntry} (hf : (demoView w).files[j]? = some f) :
      ["data/a.parquet","data/b.parquet"][j]? = some f.path := by
    rw [← hpaths,getElem?_map,hf,map_some]
  obtain ⟨e,he⟩ : ∃ e, (demoView w).files[1]? = some e := by
    subst hw
    exact isSome_iff_exists.1 (by decide +kernel)
  have hepath : e.path = "data/b.parquet" := Option.some.inj (hpath he).symm
  have hnone := hvectors e (mem_of_getElem? he)
  refine ⟨by decide, _, _, 1, e, hlists, he, htarget, .inr ⟨fun f hf => ?_, ?_, fun j f hf hs => ?_⟩,
    by rw [hnone]; rfl, fun h => ?_, fun j f _ hf => hsettled f (mem_of_getElem? hf), hdeletes⟩
  · have hmem := mem_map_of_mem (f := DataFileEntry.path) hf
    rw [hpaths] at hmem
    exact ne_of_mem_of_not_mem hmem (by decide)
  · rw [hepath]
    decide
  · match j, hpath hf with
    | 0, hp =>
      rw [← Option.some.inj hp] at hs
      exact absurd hs (by decide)
    | 1, _ => rfl
  · rw [hnone] at h
    cases h

theorem stored_demoListing (paths : List String)
    (hok : ((commitSnapshot demoSite (demoAppend 1 (paths.map (demoFile · 3))) 0).run
      (demoTable 3)).1 = .ok 1) :
    Stored demoSite (demoListing paths).objects (demoCurrent (demoListing paths))
      [newView demoSite (demoMetadata 3) (demoAppend 1 (paths.map (demoFile · 3)))] := by
  have hcommit : (commitSnapshot demoSite (demoAppend 1 (paths.map (demoFile · 3))) 0).run
      (demoTable 3) = (.ok 1, demoListing paths) := Prod.ext hok rfl
  have hfresh : FreshSnapshot demoSite (demoTable 3).objects (demoMetadata 3) 1 :=
    ⟨by decide, by decide⟩
  obtain ⟨stats,pstats,-,hst,-⟩ := run_commitSnapshot_ok (stored_demoTable 3) hfresh hcommit
  have hview : committedView demoSite (demoMetadata 3) [] (demoAppend 1 (paths.map (demoFile · 3)))
      ((demoTable 3).faults 5) = newView demoSite (demoMetadata 3)
        (demoAppend 1 (paths.map (demoFile · 3))) := by
    simp [committedView,lastView]
  rw [nil_append,hview] at hst
  have hcurrent := hst.currentMetadata
  rw [demoCurrent,hcurrent,getD_some]
  exact hst

end Deletion
end AiLake
