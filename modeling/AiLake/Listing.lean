import AiLake.CommitSpec
import AiLake.TableFootprint

/-! Reading a stored table back from a store whose calls succeed, and what an Append or Delete
commit leaves of the previous listing. -/
namespace AiLake

open StoreProgram Prog Option

variable {site : Site} {m : IcebergMetadata} {views : List View} {w : Store}
  {α : Type} {path : String} {snap : IcebergSnapshot} {l : List α}

theorem run_getObject_reliable (hr : w.Reliable) {o : Object}
    (ho : w.objects (site.locate path) = some o) : (getObject site path).run w = (.ok o, w) := by
  simp [getObject,run_bind,run_get_of_reliable hr,ho]

theorem run_putObject_reliable (hr : w.Reliable) (path : String) (o : Object) :
    (putObject site path o).run w = (.ok (), w.write (site.locate path) o) := by
  simp only [putObject,run_bind,run_put_of_reliable hr,run_pure,if_true]

theorem run_loadRawMetadata (hr : w.Reliable) (hst : Stored site w.objects m views) :
    (loadRawMetadata site).run w = (.ok m, w) := by
  have hv : (currentVersion site).run w = (.ok (versionOf site w.objects), w) := by
    rw [run_currentVersion,hr 0,World.tick_of_reliable hr]
    rfl
  have hg : (getObject site (site.path (.metadataJson (versionOf site w.objects)))).run w =
      (.ok (.metadata m), w) := run_getObject_reliable hr hst.metadata
  simp only [loadRawMetadata,run_bind,hv,hg,run_pure]

theorem run_getManifest (hr : w.Reliable) {files : List DataFileEntry}
    (h : manifestFiles site w.objects path = some files) :
    (getManifest site path).run w = (.ok files, w) := by
  unfold manifestFiles at h
  split at h
  · rename_i entries ho
    cases h
    simp only [getManifest,run_bind,run_getObject_reliable hr ho,run_pure]
  · cases h

theorem run_getDeleteManifest (hr : w.Reliable) {deletes : List EqualityDeleteFile}
    (h : manifestDeletes site w.objects path = some deletes) :
    (getDeleteManifest site path).run w = (.ok deletes, w) := by
  unfold manifestDeletes at h
  split at h
  · rename_i entries ho
    cases h
    simp only [getDeleteManifest,run_bind,run_getObject_reliable hr ho,run_pure]
  · cases h

theorem run_readManifests {content : Int} {read : String → Program (List α)}
    {value : String → Option (List α)}
    (hread : ∀ path l, value path = some l → (read path).run w = (.ok l, w))
    {entries : List ManifestListEntry} (h : collect content value entries = some l) :
    (readManifests content read entries).run w = (.ok l, w) := by
  induction entries generalizing l with
  | nil =>
    cases h
    rfl
  | cons e rest ih =>
    rw [collect] at h
    rw [readManifests]
    split at h
    · rw [if_pos ‹_›]
      exact ih h
    · rw [if_neg ‹_›]
      obtain ⟨first,hfirst,hrest⟩ := bind_eq_some_iff.1 h
      obtain ⟨more,hmore,rfl⟩ := map_eq_some_iff.1 hrest
      simp only [run_bind,hread _ _ hfirst,ih hmore,run_pure]

theorem run_listFromMetadata {content : Int} {read : String → Program (List α)}
    {value : String → Option (List α)}
    (hread : ∀ path l, value path = some l → (read path).run w = (.ok l, w)) (hr : w.Reliable)
    {id : Option SnapshotId} {entries : List ManifestListEntry}
    (hid : id.or m.currentSnapshotId = some snap.snapshotId)
    (hsnap : m.snapshots.find? (fun s => s.snapshotId = snap.snapshotId) = some snap)
    (hlist : w.objects (site.locate snap.manifestList) = some (.manifestList entries))
    (h : collect content value entries = some l) :
    (listFromMetadata site content read m id).run w = (.ok l, w) := by
  have hml : (getManifestList site snap.manifestList).run w = (.ok entries, w) := by
    simp only [getManifestList,run_bind,run_getObject_reliable hr hlist,run_pure]
  simp only [listFromMetadata,hid,hsnap,run_bind,hml,run_readManifests hread h]

theorem find?_eq_of_nodup {β : Type} [DecidableEq β] {f : α → β} {a : α} (hn : (l.map f).Nodup)
    (ha : a ∈ l) : l.find? (fun x => f x = f a) = some a := by
  induction l with
  | nil => cases ha
  | cons x rest ih =>
    rw [List.map_cons,List.nodup_cons] at hn
    rcases List.mem_cons.1 ha with rfl | hr
    · simp
    · have hx : f x ≠ f a := fun he => hn.1 (he ▸ List.mem_map_of_mem hr)
      simpa [hx] using ih hn.2 hr

theorem viewOf_eq_some {v : View} {objects : String → Option Object}
    (h : viewOf site objects snap = some v) :
    ∃ entries, objects (site.locate snap.manifestList) = some (.manifestList entries) ∧
      collect 0 (manifestFiles site objects) entries = some v.files ∧
      collect 1 (manifestDeletes site objects) entries = some v.deletes := by
  unfold viewOf at h
  split at h
  · rename_i entries ho
    exact ⟨entries, ho, viewOfList_eq_some.1 h⟩
  · cases h

theorem run_list (hr : w.Reliable) (hst : Stored site w.objects m views) {id : Option SnapshotId}
    {v : View} (hs : snap ∈ m.snapshots) (hv : viewOf site w.objects snap = some v)
    (hid : id.or m.currentSnapshotId = some snap.snapshotId) :
    (listFiles site id).run w = (.ok v.files, w) ∧
      (listEqualityDeletes site id).run w = (.ok v.deletes, w) := by
  obtain ⟨entries,hlist,hfiles,hdels⟩ := viewOf_eq_some hv
  have hfind := find?_eq_of_nodup hst.distinct hs
  have hload := run_loadRawMetadata hr hst
  constructor
  · simp only [listFiles,run_bind,hload]
    exact run_listFromMetadata (fun _ _ => run_getManifest hr) hr hid hfind hlist hfiles
  · simp only [listEqualityDeletes,run_bind,hload]
    exact run_listFromMetadata (fun _ _ => run_getDeleteManifest hr) hr hid hfind hlist hdels

theorem run_list_current (hr : w.Reliable) (hst : Stored site w.objects m views) :
    (listFiles site none).run w = (.ok (lastView views).files, w) ∧
      (listEqualityDeletes site none).run w = (.ok (lastView views).deletes, w) := by
  cases hl : m.snapshots.getLast? with
  | none =>
    have hcur : m.currentSnapshotId = none := by rw [hst.current,hl,map_none]
    simp [listFiles,listEqualityDeletes,listFilesFromMetadata,listEqualityDeletesFromMetadata,
      listFromMetadata,run_bind,run_loadRawMetadata hr hst,hcur,hst.lastView_of_none hl]
  | some snap =>
    refine run_list hr hst (List.mem_of_getLast? hl) (hst.viewOf_last hl) ?_
    rw [hst.current,hl,map_some,none_or]

theorem run_list_last (hr : w.Reliable) (hst : Stored site w.objects m views) {id : SnapshotId}
    (hid : m.currentSnapshotId = some id) :
    (listFiles site (some id)).run w = (.ok (lastView views).files, w) ∧
      (listEqualityDeletes site (some id)).run w = (.ok (lastView views).deletes, w) := by
  obtain ⟨snap,hl,rfl⟩ := map_eq_some_iff.1 (hst.current.symm.trans hid)
  exact run_list hr hst (List.mem_of_getLast? hl) (hst.viewOf_last hl) (some_or ..)

@[simp] theorem lastView_concat (v : View) : lastView (views ++ [v]) = v := by
  simp [lastView]

theorem succeeds_putObject (path : String) (o : Object) : (putObject site path o).Succeeds :=
  fun _ hr => ⟨_, _, run_putObject_reliable hr path o⟩

theorem succeeds_saveMetadata (m : IcebergMetadata) : (saveMetadata site m).Succeeds := by
  have hversion : (currentVersion site).Succeeds := fun w _ => ⟨_, _, run_currentVersion w⟩
  exact hversion.bind fun _ => (succeeds_putObject _ _).bind fun _ => succeeds_putObject _ _

theorem succeeds_buildCommit (m : IcebergMetadata) (s : NewSnapshot) (nowMs : Int) :
    (buildCommit site m s nowMs).Succeeds := by
  refine (succeeds_putObject _ _).bind fun _ => ?_
  refine Prog.Succeeds.bind (fun w _ => ?_) fun inherited => ?_
  · obtain ⟨w',hrun,-⟩ := run_inheritedManifests site m s.operation ∅ w
    exact ⟨_,w',hrun⟩
  · refine Prog.Succeeds.bind ?_ fun deletes => ?_
    · unfold writeDeleteManifest
      split
      · exact succeeds_pure _
      · exact (succeeds_putObject _ _).bind fun _ => succeeds_pure _
    · refine (succeeds_putObject _ _).bind fun _ => ?_
      refine Prog.Succeeds.bind (fun w _ => ?_) fun stats => ?_
      · obtain ⟨r,w',hrun,-⟩ := run_writeStatistics site m s (committedFiles site m s.files).2 w
        exact ⟨r,w',hrun⟩
      · refine Prog.Succeeds.bind (fun w _ => ?_) fun _ => succeeds_pure _
        obtain ⟨r,w',hrun,-⟩ := run_writePartitionStatistics site m s _ w
        exact ⟨r,w',hrun⟩

theorem succeeds_commitBody (hr : w.Reliable) (hst : Stored site w.objects m views)
    (s : NewSnapshot) (nowMs : Int) :
    ∃ id w', (commitBody site s nowMs).run w = (.ok id, w') := by
  have hrest : (buildCommit site m s nowMs >>= fun artifacts => do
      saveMetadata site (m.applyCommit artifacts)
      pure artifacts.snapshot.snapshotId).Succeeds :=
    (succeeds_buildCommit m s nowMs).bind fun _ =>
      (succeeds_saveMetadata _).bind fun _ => succeeds_pure _
  obtain ⟨id,w',hrun⟩ := hrest w hr
  exact ⟨id, w', run_bind_ok.2 ⟨m, w, run_loadRawMetadata hr hst, hrun⟩⟩

/-- On such a store a commit fails only when the lock object is held, and then changes nothing. -/
theorem run_commitSnapshot_reliable (hr : w.Reliable) (hst : Stored site w.objects m views)
    (s : NewSnapshot) (nowMs : Int) :
    (w.locked (site.key .commitLock) = false ∧
      ∃ id w', (commitSnapshot site s nowMs).run w = (.ok id, w')) ∨
    w.locked (site.key .commitLock) = true ∧
      ∃ e, (commitSnapshot site s nowMs).run w = (.error e, w.setMutex false) := by
  have henter : (w.setMutex true).Reliable := hr
  unfold commitSnapshot
  simp only [run_bind,run_enter,World.tick_of_reliable hr,run_tryLock,
    henter 0,World.setMutex_locked,World.tick_of_reliable henter,Bool.false_eq_true,false_or,
    if_false]
  cases hl : w.locked (site.key .commitLock) with
  | true =>
    right
    simp only [Bool.not_true,if_true,run_bind,run_leave,World.tick_of_reliable henter]
    exact ⟨trivial,_,rfl⟩
  | false =>
    left
    have hlocked : ((w.setMutex true).setLock (site.key .commitLock) true).Reliable := hr
    obtain ⟨id,w₁,hbody⟩ := succeeds_commitBody hlocked hst s nowMs
    have hr₁ : w₁.Reliable := by
      have hrun := hlocked.run (commitBody site s nowMs)
      rw [hbody] at hrun
      exact hrun
    simp only [Bool.not_false,Bool.false_eq_true,if_false,run_bind,run_attempt,hbody,
      run_unlock,hr₁ 0,run_leave,if_true]
    exact ⟨trivial,id,_,rfl⟩

/-- What an Append or Delete is to leave: both listings of the new snapshot are those of the
previous one and what was committed, in some order. -/
def KeepsListing (site : Site) (m : IcebergMetadata) (s : NewSnapshot) (w w' : Store)
    (id : SnapshotId) : Prop :=
  ∃ files deletes files' deletes',
    ((listFiles site none).run w.reliably).1 = .ok files ∧
    ((listEqualityDeletes site none).run w.reliably).1 = .ok deletes ∧
    ((listFiles site (some id)).run w'.reliably).1 = .ok files' ∧
    ((listEqualityDeletes site (some id)).run w'.reliably).1 = .ok deletes' ∧
    files'.Perm (files ++ (newView site m s).files) ∧
    deletes'.Perm (deletes ++ (newView site m s).deletes)

theorem eq_nil_of_perm_append {l' : List α} (h : l'.Perm (l ++ l')) : l = [] := by
  have hlen := h.length_eq
  rw [List.length_append] at hlen
  exact List.length_eq_zero_iff.1 (by omega)

/-! A small table to run the catalog on. -/

def emptyStore : Store := ⟨fun _ => none, fun _ => false, false, fun _ => false⟩

def demoSite : Site := Site.plain "db" "docs" (by decide)

def demoMetadata (formatVersion : Nat) : IcebergMetadata :=
  .new demoSite.root formatVersion none none [] [] 0

def demoTable (formatVersion : Nat) : Store :=
  ((createTable demoSite (demoMetadata formatVersion)).run emptyStore).2

theorem stored_demoTable (formatVersion : Nat) :
    Stored demoSite (demoTable formatVersion).objects (demoMetadata formatVersion) [] :=
  (run_createTable (fun _ => rfl) (fun _ => rfl) rfl rfl).2

def demoFile (path : String) (recordCount : Nat) : DataFileEntry :=
  makeDataFileEntry path recordCount 10 ⟨"", 0⟩ ⟨"embedding", 4, 0, 0⟩

def demoAppend (id : SnapshotId) (files : List DataFileEntry) : NewSnapshot where
  snapshotId := id
  parentSnapshotId := none
  files := files
  operation := .append
  icebergSchema := none
  extraProperties := []
  bloomFilters := []
  equalityDeleteFiles := []

def demoCommit (id : SnapshotId) (path : String) (w : Store) : Except AilakeError SnapshotId × Store :=
  (commitSnapshot demoSite (demoAppend id [demoFile path 1]) 0).run w

theorem length_assignRowIds (next : Int) (files : List DataFileEntry) :
    (assignRowIds next files).2.length = files.length := by
  induction files generalizing next with
  | nil => rfl
  | cons f rest ih => cases h : f.firstRowId <;> simp [assignRowIds,h,ih]

theorem length_newView_files (site : Site) (m : IcebergMetadata) (s : NewSnapshot) :
    (newView site m s).files.length = s.files.length := by
  unfold newView committedFiles
  split <;> simp [length_assignRowIds]

end AiLake
