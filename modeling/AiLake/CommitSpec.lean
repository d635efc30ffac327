import AiLake.TableView

/-! A commit appends one view to a stored table, whatever reads fail; the read of the previous
manifest list decides which one. -/
namespace AiLake

open StoreProgram List Function

section Commit

variable {site : Site} {m : IcebergMetadata} {s : NewSnapshot} {nowMs : Int} {w w' : Store}
  {objects objects' before : String → Option Object} {id : SnapshotId} {m' : IcebergMetadata}

def commitKeys (site : Site) (id : SnapshotId) : Set String :=
  {k | ∃ p ∈ commitPaths id, site.key p = k}

/-- The manifests taken over, given whether the previous manifest list could be read. -/
def inheritedList (site : Site) (m : IcebergMetadata) (operation : SnapshotOperation)
    (objects : String → Option Object) (failed : Bool) : List ManifestListEntry :=
  if operation.inherits then
    match m.snapshots.getLast? with
    | none => []
    | some prev =>
      if failed then []
      else match objects (site.locate prev.manifestList) with
        | some (.manifestList entries) => entries
        | _ => []
  else []

variable (site) in
theorem run_sizeManifests (entries : List ManifestListEntry) (S : Set String) (w : Store) :
    ∃ w', (sizeManifests site entries).run w = (.ok (), w') ∧ w.SameOff S w' := by
  induction entries generalizing w with
  | nil => exact ⟨w, rfl, .refl S w⟩
  | cons e rest ih =>
    obtain ⟨w',hrun,hsame⟩ := ih w.tick
    refine ⟨w', ?_, (World.SameOff.tick S w).trans hsame⟩
    simpa only [sizeManifests,Prog.run_bind,Prog.run_head] using hrun

variable (site) in
theorem run_inheritedManifests (m : IcebergMetadata) (operation : SnapshotOperation)
    (S : Set String) (w : Store) :
    ∃ w', (inheritedManifests site m operation).run w =
        (.ok (inheritedList site m operation w.objects (w.faults 0)), w') ∧ w.SameOff S w' := by
  unfold inheritedManifests inheritedList
  by_cases hop : operation.inherits = true
  · cases hlast : m.snapshots.getLast? with
    | none => exact ⟨w, by simp [hop], .refl S w⟩
    | some prev =>
      simp only [hop,if_true,Prog.run_bind,Prog.run_get]
      by_cases hf : w.faults 0 = true
      · exact ⟨w.tick, by simp [hf], .tick S w⟩
      · cases ho : w.objects (site.locate prev.manifestList) with
        | none => exact ⟨w.tick, by simp [hf], .tick S w⟩
        | some o =>
          cases o with
          | manifestList entries =>
            obtain ⟨w',hrun,hsame⟩ := run_sizeManifests site entries S w.tick
            exact ⟨w', by simp [hf,Prog.run_bind,hrun], (World.SameOff.tick S w).trans hsame⟩
          | _ => exact ⟨w.tick, by simp [hf], .tick S w⟩
  · exact ⟨w, by simp [hop], .refl S w⟩

def deleteEntries (site : Site) (id : SnapshotId) (deletes : List EqualityDeleteFile) :
    List ManifestListEntry :=
  if deletes.isEmpty then [] else [⟨site.path (.deleteManifest id), 1⟩]

theorem run_writeDeleteManifest_ok {seq : Int} {deletes : List EqualityDeleteFile}
    {entries : List ManifestListEntry}
    (h : (writeDeleteManifest site id seq deletes).run w = (.ok entries, w')) :
    entries = deleteEntries site id deletes ∧ w.SameOff {site.key (.deleteManifest id)} w' ∧
      (deletes ≠ [] → w'.objects (site.key (.deleteManifest id)) =
        some (.deleteManifest (writeEqualityDeleteManifest deletes seq))) := by
  unfold writeDeleteManifest at h
  unfold deleteEntries
  by_cases hd : deletes.isEmpty = true
  · simp only [hd,if_true,Prog.run_pure,Prod.mk.injEq,Except.ok.injEq] at h
    obtain ⟨rfl,rfl⟩ := h
    exact ⟨by simp [hd], .refl _ w, fun hne => absurd (isEmpty_iff.1 hd) hne⟩
  · simp only [hd,Prog.run_bind,run_putObject,Bool.false_eq_true,if_false] at h
    by_cases hf : w.faults 0 = true
    · simp [hf] at h
    · simp only [hf,Bool.false_eq_true,if_false,Prog.run_pure,Prod.mk.injEq,Except.ok.injEq,
        Place.locate_path] at h
      obtain ⟨rfl,rfl⟩ := h
      exact ⟨by simp [hd], World.SameOff.tick_write w _ _, fun _ => by simp⟩

variable (site m s) in
theorem run_writeStatistics (files : List DataFileEntry) (w : Store) :
    ∃ r w', (writeStatistics site m s files).run w = (.ok r, w') ∧
      w.SameOff {site.key (.statistics s.snapshotId)} w' := by
  unfold writeStatistics
  split
  · simp only [Prog.run_bind,Prog.run_put,Place.locate_path]
    cases w.faults 0 with
    | false => exact ⟨_, _, rfl, .tick_write w _ _⟩
    | true => exact ⟨_, _, rfl, .tick _ w⟩
  · exact ⟨_, _, rfl, .refl _ w⟩

variable (site) in
theorem run_readForStatistics (entries : List ManifestListEntry) (S : Set String) (w : Store) :
    ∃ files w', (readForStatistics site entries).run w = (.ok files, w') ∧ w.SameOff S w' := by
  induction entries generalizing w with
  | nil => exact ⟨[], w, rfl, .refl S w⟩
  | cons e rest ih =>
    by_cases he : e.content ≠ 0
    · simpa only [readForStatistics,if_pos he] using ih w
    · obtain ⟨files,w',hrun,hsame⟩ := ih w.tick
      simp only [readForStatistics,if_neg he,Prog.run_bind,Prog.run_get,hrun]
      split <;> exact ⟨_, w', rfl, (World.SameOff.tick S w).trans hsame⟩

variable (site m s) in
theorem run_writePartitionStatistics (entries : List ManifestListEntry) (w : Store) :
    ∃ r w', (writePartitionStatistics site m s entries).run w = (.ok r, w') ∧
      w.SameOff {site.key (.partitionStatistics s.snapshotId)} w' := by
  unfold writePartitionStatistics
  cases m.partitionSpec with
  | none => exact ⟨_, _, rfl, .refl _ w⟩
  | some spec =>
    by_cases hu : spec.isUnpartitioned = true
    · exact ⟨none, w, by simp [hu], .refl _ w⟩
    · obtain ⟨files,w₁,hrun,hsame⟩ := run_readForStatistics site entries
        {site.key (.partitionStatistics s.snapshotId)} w
      simp only [hu,Bool.false_eq_true,if_false,Prog.run_bind,hrun,Prog.run_put,
        Place.locate_path]
      cases w₁.faults 0 with
      | false => exact ⟨_, _, rfl, hsame.trans (.tick_write w₁ _ _)⟩
      | true => exact ⟨_, _, rfl, hsame.trans (.tick _ w₁)⟩

theorem key_mem_commitKeys {p : MetaPath} (h : p ∈ commitPaths id) :
    site.key p ∈ commitKeys site id := ⟨p,h,rfl⟩

/-- What a snapshot's manifests are once `build_commit` has succeeded. `before` is the store when
the previous manifest list is read. -/
structure Built (site : Site) (m : IcebergMetadata) (s : NewSnapshot)
    (before objects : String → Option Object) (failed : Bool) : Prop where
  manifest : objects (site.key (.manifest s.snapshotId)) = some (.manifest
    (writeManifestFile (committedFiles site m s.files).2 (m.lastSequenceNumber + 1)
      m.partitionSpec))
  deleteManifest : committedDeletes site s.equalityDeleteFiles ≠ [] →
    objects (site.key (.deleteManifest s.snapshotId)) = some (.deleteManifest
      (writeEqualityDeleteManifest (committedDeletes site s.equalityDeleteFiles)
        (m.lastSequenceNumber + 1)))
  manifestList : objects (site.key (.manifestList s.snapshotId)) = some (.manifestList
    (inheritedList site m s.operation before failed ++
      ⟨site.path (.manifest s.snapshotId), 0⟩ ::
        deleteEntries site s.snapshotId (committedDeletes site s.equalityDeleteFiles)))

theorem run_buildCommit_ok {a : CommitArtifacts}
    (h : (buildCommit site m s nowMs).run w = (.ok a, w')) :
    ∃ stats pstats before, a = commitArtifacts site m s nowMs stats pstats ∧
      w.SameOff (commitKeys site s.snapshotId) w' ∧
      (∀ k ∉ commitKeys site s.snapshotId, before k = w.objects k) ∧
      Built site m s before w'.objects (w.faults 1) := by
  obtain ⟨_,w₁,h₁,h⟩ := Prog.run_bind_ok.1 h
  have hw₁ := run_putObject_ok h₁
  obtain ⟨inherited,w₂,h₂,h⟩ := Prog.run_bind_ok.1 h
  obtain ⟨w₂',hrun₂,hsame₂⟩ := run_inheritedManifests site m s.operation ∅ w₁
  rw [hrun₂,Prod.mk.injEq,Except.ok.injEq] at h₂
  obtain ⟨rfl,rfl⟩ := h₂
  obtain ⟨deletes,w₃,h₃,h⟩ := Prog.run_bind_ok.1 h
  obtain ⟨rfl,hsame₃,hdel⟩ := run_writeDeleteManifest_ok h₃
  obtain ⟨_,w₄,h₄,h⟩ := Prog.run_bind_ok.1 h
  have hw₄ := run_putObject_ok h₄
  obtain ⟨stats,w₅,h₅,h⟩ := Prog.run_bind_ok.1 h
  obtain ⟨r₅,w₅',hrun₅,hsame₅⟩ := run_writeStatistics site m s
    (committedFiles site m s.files).2 w₄
  rw [hrun₅,Prod.mk.injEq,Except.ok.injEq] at h₅
  obtain ⟨rfl,rfl⟩ := h₅
  obtain ⟨pstats,w₆,h₆,h⟩ := Prog.run_bind_ok.1 h
  obtain ⟨r₆,w₆',hrun₆,hsame₆⟩ := run_writePartitionStatistics site m s
    (inheritedList site m s.operation w₁.objects (w₁.faults 0) ++
      ⟨site.path (.manifest s.snapshotId), 0⟩ ::
        deleteEntries site s.snapshotId (committedDeletes site s.equalityDeleteFiles)) w₅'
  rw [hrun₆,Prod.mk.injEq,Except.ok.injEq] at h₆
  obtain ⟨rfl,rfl⟩ := h₆
  rw [Prog.run_pure,Prod.mk.injEq,Except.ok.injEq] at h
  obtain ⟨rfl,rfl⟩ := h
  have hone {p : MetaPath} (hp : p ∈ commitPaths s.snapshotId) :
      ({site.key p} : Set String) ⊆ commitKeys site s.snapshotId :=
    Set.singleton_subset_iff.2 (key_mem_commitKeys hp)
  have hs₁ : w.SameOff (commitKeys site s.snapshotId) w₁ :=
    hw₁ ▸ (World.SameOff.tick_write w _ _).mono (hone (by simp [commitPaths]))
  have hs₄ : w₃.SameOff {site.key (.manifestList s.snapshotId)} w₄ := hw₄ ▸ .tick_write w₃ _ _
  refine ⟨r₅,r₆,w₁.objects,rfl,?_,hs₁.objects,?_,?_,?_⟩
  · exact hs₁.trans ((hsame₂.mono (Set.empty_subset _)).trans
      ((hsame₃.mono (hone (by simp [commitPaths]))).trans
        ((hs₄.mono (hone (by simp [commitPaths]))).trans
          ((hsame₅.mono (hone (by simp [commitPaths]))).trans
            (hsame₆.mono (hone (by simp [commitPaths])))))))
  · rw [hsame₆.objects _ (by simp),hsame₅.objects _ (by simp),hs₄.objects _ (by simp),
      hsame₃.objects _ (by simp),hsame₂.objects _ (by simp),hw₁]
    simp
  · intro hne
    rw [hsame₆.objects _ (by simp),hsame₅.objects _ (by simp),hs₄.objects _ (by simp)]
    exact hdel hne
  · rw [hsame₆.objects _ (by simp),hsame₅.objects _ (by simp),hw₄]
    simp [hw₁]

def newView (site : Site) (m : IcebergMetadata) (s : NewSnapshot) : View where
  files := (committedFiles site m s.files).2.map
    (·.stamped m.partitionSpec (m.lastSequenceNumber + 1))
  deletes := (committedDeletes site s.equalityDeleteFiles).map
    (·.stamped (m.lastSequenceNumber + 1))

def lastView (views : List View) : View := views.getLast?.getD ⟨[], []⟩

def View.append (v v' : View) : View := ⟨v.files ++ v'.files, v.deletes ++ v'.deletes⟩

/-- The view of a committed snapshot, given whether the previous manifest list could be read. -/
def committedView (site : Site) (m : IcebergMetadata) (views : List View) (s : NewSnapshot)
    (failed : Bool) : View :=
  if s.operation.inherits ∧ ¬failed then (lastView views).append (newView site m s)
  else newView site m s

theorem collect_append {α : Type} {content : Int} {read : String → Option (List α)}
    {es es' : List ManifestListEntry} {l l' : List α} (h : collect content read es = some l)
    (h' : collect content read es' = some l') :
    collect content read (es ++ es') = some (l ++ l') := by
  induction es generalizing l with
  | nil =>
    cases h
    exact h'
  | cons e rest ih =>
    rw [cons_append,collect]
    rw [collect] at h
    split at h
    · rw [if_pos ‹_›]
      exact ih h
    · rw [if_neg ‹_›]
      obtain ⟨first,hfirst,hrest⟩ := Option.bind_eq_some_iff.1 h
      obtain ⟨more,hmore,rfl⟩ := Option.map_eq_some_iff.1 hrest
      rw [hfirst,Option.bind_some,ih hmore,Option.map_some,append_assoc]

theorem viewOfList_append {es es' : List ManifestListEntry} {v v' : View}
    (h : viewOfList site objects es = some v) (h' : viewOfList site objects es' = some v') :
    viewOfList site objects (es ++ es') = some (v.append v') := by
  rw [viewOfList_eq_some] at h h' ⊢
  exact ⟨collect_append h.1 h'.1, collect_append h.2 h'.2⟩

theorem viewOfList_own {failed : Bool} (h : Built site m s before objects failed) :
    viewOfList site objects (⟨site.path (.manifest s.snapshotId), 0⟩ ::
      deleteEntries site s.snapshotId (committedDeletes site s.equalityDeleteFiles)) =
        some (newView site m s) := by
  have hfiles : manifestFiles site objects (site.path (.manifest s.snapshotId)) =
      some (newView site m s).files := by
    simp only [manifestFiles,Place.locate_path,h.manifest,newView,
      readManifestFile_writeManifestFile]
  rw [viewOfList_eq_some]
  by_cases hd : committedDeletes site s.equalityDeleteFiles = []
  · simp [deleteEntries,hd,collect,hfiles,newView]
  · have hdels : manifestDeletes site objects (site.path (.deleteManifest s.snapshotId)) =
        some (newView site m s).deletes := by
      simp only [manifestDeletes,Place.locate_path,h.deleteManifest hd,newView,
        readEqualityDeleteManifest_write]
    simp [deleteEntries,hd,collect,hfiles,hdels]

theorem inheritedList_of_failed (before : String → Option Object) :
    inheritedList site m s.operation before true = [] := by
  unfold inheritedList
  split <;> [split <;> rfl; rfl]

@[simp] theorem View.nil_append (v : View) : View.append ⟨[], []⟩ v = v := rfl

variable {views : List View}

theorem Stored.getLast?_map_viewOf (h : Stored site objects m views) :
    m.snapshots.getLast?.map (viewOf site objects) = views.getLast?.map some := by
  rw [← getLast?_map,h.views,getLast?_map]

theorem Stored.viewOf_last (h : Stored site objects m views) {prev : IcebergSnapshot}
    (hp : m.snapshots.getLast? = some prev) : viewOf site objects prev = some (lastView views) := by
  have hl := h.getLast?_map_viewOf
  rw [hp,Option.map_some] at hl
  obtain ⟨v,hv,he⟩ := Option.map_eq_some_iff.1 hl.symm
  rw [lastView,hv,← he,Option.getD_some]

theorem Stored.lastView_of_none (h : Stored site objects m views)
    (hp : m.snapshots.getLast? = none) : lastView views = ⟨[], []⟩ := by
  have hl := h.getLast?_map_viewOf
  rw [hp,Option.map_none] at hl
  rw [lastView,Option.map_eq_none_iff.1 hl.symm,Option.getD_none]

theorem not_mem_commitKeys {k : String} {o : Object} (hf : FreshSnapshot site objects m id)
    (ho : objects k = some o) : k ∉ commitKeys site id := by
  rintro ⟨p,hp,rfl⟩
  rw [hf.absent p hp] at ho
  cases ho

theorem viewOfList_inherited (failed : Bool) (hst : Stored site objects m views)
    (hfresh : FreshSnapshot site objects m s.snapshotId)
    (hbefore : ∀ k ∉ commitKeys site s.snapshotId, before k = objects k)
    (hkeep : KeepsManifests objects objects') :
    viewOfList site objects' (inheritedList site m s.operation before failed) =
      some (if s.operation.inherits ∧ ¬failed then lastView views else ⟨[], []⟩) := by
  by_cases hop : s.operation.inherits = true
  · cases failed with
    | true => simp [inheritedList_of_failed,viewOfList_eq_some,collect]
    | false =>
      cases hl : m.snapshots.getLast? with
      | none =>
        simp [inheritedList,hop,hl,hst.lastView_of_none hl,viewOfList_eq_some,collect]
      | some prev =>
        have hv := hst.viewOf_last hl
        unfold viewOf at hv
        split at hv
        · rename_i entries ho
          have hb := (hbefore _ (not_mem_commitKeys hfresh ho)).trans ho
          rw [viewOfList_eq_some] at hv
          simp only [inheritedList,hop,hl,hb,if_true,Bool.false_eq_true,if_false,
            not_false_eq_true,and_self,viewOfList_eq_some]
          exact ⟨collect_mono (fun _ _ => manifestFiles_mono hkeep) hv.1,
            collect_mono (fun _ _ => manifestDeletes_mono hkeep) hv.2⟩
        · cases hv
  · simp [inheritedList,hop,viewOfList_eq_some,collect]

variable (nowMs) in
theorem viewOf_committed {failed : Bool} (hst : Stored site objects m views)
    (hfresh : FreshSnapshot site objects m s.snapshotId)
    (hbefore : ∀ k ∉ commitKeys site s.snapshotId, before k = objects k)
    (hkeep : KeepsManifests objects objects') (hb : Built site m s before objects' failed) :
    viewOf site objects' (icebergSnapshot site m s nowMs) =
      some (committedView site m views s failed) := by
  have hinh := viewOfList_inherited failed hst hfresh hbefore hkeep
  have hall := viewOfList_append hinh (viewOfList_own hb)
  simp only [viewOf,icebergSnapshot,Place.locate_path,hb.manifestList,hall,committedView]
  split <;> rfl

theorem run_currentVersion (w : Store) : (currentVersion site).run w =
    (.ok (if w.faults 0 then 0 else versionOf site w.objects), w.tick) := by
  simp only [currentVersion,Prog.run_bind,Prog.run_get,versionOf]
  cases w.faults 0 with
  | true => rfl
  | false =>
    cases w.objects (site.key .versionHint) with
    | none => rfl
    | some o => cases o <;> rfl

theorem run_loadRawMetadata_ok (hst : Stored site w.objects m views)
    (h : (loadRawMetadata site).run w = (.ok m', w')) : m' = m ∧ w' = w.tick.tick := by
  obtain ⟨v,w₁,h₁,h⟩ := Prog.run_bind_ok.1 h
  rw [run_currentVersion,Prod.mk.injEq,Except.ok.injEq] at h₁
  obtain ⟨rfl,rfl⟩ := h₁
  obtain ⟨o,w₂,h₂,h⟩ := Prog.run_bind_ok.1 h
  obtain ⟨ho,rfl⟩ := run_getObject_ok h₂
  rw [World.tick_objects,Place.locate_path] at ho
  cases hf : w.faults 0 with
  | true =>
    rw [hf,if_pos rfl,hst.fromOne] at ho
    cases ho
  | false =>
    rw [hf,if_neg Bool.false_ne_true,hst.metadata] at ho
    cases ho
    rw [Prog.run_pure,Prod.mk.injEq,Except.ok.injEq] at h
    exact ⟨h.1.symm,h.2.symm⟩

theorem run_saveMetadata_ok {u : Unit} (h : (saveMetadata site m').run w = (.ok u, w')) :
    ∃ n, w'.objects = update (update w.objects
        (site.key (.metadataJson (n + 1))) (some (.metadata m')))
        (site.key .versionHint) (some (.versionHint (some (n + 1)))) ∧
      w'.locked = w.locked ∧ w'.mutex = w.mutex := by
  obtain ⟨v,w₁,h₁,h⟩ := Prog.run_bind_ok.1 h
  rw [run_currentVersion,Prod.mk.injEq,Except.ok.injEq] at h₁
  obtain ⟨-,rfl⟩ := h₁
  obtain ⟨_,w₂,h₂,h⟩ := Prog.run_bind_ok.1 h
  have hw₂ := run_putObject_ok h₂
  have hw' := run_putObject_ok h
  subst hw₂ hw'
  exact ⟨v,rfl,rfl,rfl⟩

def catalogKeys (site : Site) (id : SnapshotId) : Set String :=
  {k | k ∈ commitKeys site id ∨ k = site.key .versionHint ∨
    ∃ v, k = site.key (.metadataJson v)}

theorem MetadataNames.congr (h : MetadataNames site objects)
    (hh : objects' (site.key .versionHint) = objects (site.key .versionHint))
    (hv : ∀ v, objects' (site.key (.metadataJson v)) = objects (site.key (.metadataJson v))) :
    MetadataNames site objects' where
  hint o ho := h.hint o (hh ▸ ho)
  versions v o ho := h.versions v o (hv v ▸ ho)
  fromOne := (hv 0).trans h.fromOne

theorem MetadataNames.keepsManifests_save (h : MetadataNames site objects) (n : Nat)
    (m' : IcebergMetadata) (version : Option Nat) :
    KeepsManifests objects (update (update objects
      (site.key (.metadataJson n)) (some (.metadata m')))
      (site.key .versionHint) (some (.versionHint version))) := by
  intro k o ho hman
  have hk₁ : k ≠ site.key .versionHint := by
    rintro rfl
    obtain ⟨v,rfl⟩ := h.hint _ ho
    cases hman
  have hk₂ : k ≠ site.key (.metadataJson n) := by
    rintro rfl
    obtain ⟨m₀,rfl⟩ := h.versions _ _ ho
    cases hman
  rw [update_of_ne hk₁,update_of_ne hk₂,ho]

theorem stored_of_save {n : Nat} (hn : MetadataNames site objects)
    (hview : m'.snapshots.map (viewOf site objects) = views.map some)
    (hcur : m'.currentSnapshotId = m'.snapshots.getLast?.map (·.snapshotId))
    (hdist : (m'.snapshots.map (·.snapshotId)).Nodup) :
    Stored site (update (update objects
      (site.key (.metadataJson (n + 1))) (some (.metadata m')))
      (site.key .versionHint) (some (.versionHint (some (n + 1))))) m' views where
  hint o ho := by
    rw [update_self] at ho
    exact ⟨some (n + 1), (Option.some.inj ho).symm⟩
  versions v o ho := by
    rw [update_of_ne (by simp)] at ho
    by_cases hv : v = n + 1
    · subst hv
      rw [update_self] at ho
      exact ⟨m', (Option.some.inj ho).symm⟩
    · rw [update_of_ne (by simpa using hv)] at ho
      exact hn.versions v o ho
  fromOne := by
    rw [update_of_ne (by simp),update_of_ne (by simp)]
    exact hn.fromOne
  metadata := by simp [versionOf]
  views := by
    rw [← hview]
    refine map_congr_left fun snap hsnap => ?_
    have hm : viewOf site objects snap ∈ m'.snapshots.map (viewOf site objects) :=
      mem_map_of_mem hsnap
    rw [hview] at hm
    obtain ⟨v,-,hv⟩ := mem_map.1 hm
    rw [← hv]
    exact viewOf_mono (hn.keepsManifests_save _ _ _) hv.symm
  current := hcur
  distinct := hdist

theorem keepsManifests_of_sameOff (hfresh : FreshSnapshot site objects m s.snapshotId)
    (h : ∀ k, k ∉ commitKeys site s.snapshotId → objects' k = objects k) :
    KeepsManifests objects objects' := by
  intro k o ho _
  rw [h k (not_mem_commitKeys hfresh ho),ho]

theorem not_mem_commitKeys_of_ne {p : MetaPath} (h : p ∉ commitPaths id) :
    site.key p ∉ commitKeys site id := by
  rintro ⟨q,hq,he⟩
  rw [Site.key_inj] at he
  exact h (he ▸ hq)

/-- The body of a commit that succeeds adds one snapshot; its view depends on whether the fourth
call, the read of the previous manifest list, failed. -/
theorem run_commitBody_ok (hst : Stored site w.objects m views)
    (hfresh : FreshSnapshot site w.objects m s.snapshotId)
    (h : (commitBody site s nowMs).run w = (.ok id, w')) : ∃ stats pstats, id = s.snapshotId ∧
      Stored site w'.objects (m.applyCommit (commitArtifacts site m s nowMs stats pstats))
        (views ++ [committedView site m views s (w.faults 3)]) ∧
      w.SameOff (catalogKeys site s.snapshotId) w' := by
  obtain ⟨m₀,w₁,h₁,h⟩ := Prog.run_bind_ok.1 h
  obtain ⟨rfl,rfl⟩ := run_loadRawMetadata_ok hst h₁
  obtain ⟨a,w₂,h₂,h⟩ := Prog.run_bind_ok.1 h
  obtain ⟨stats,pstats,before,rfl,hsame,hbefore,hbuilt⟩ := run_buildCommit_ok h₂
  obtain ⟨_,w₃,h₃,h⟩ := Prog.run_bind_ok.1 h
  obtain ⟨n,hobj,hlocked,hmutex⟩ := run_saveMetadata_ok h₃
  rw [Prog.run_pure,Prod.mk.injEq,Except.ok.injEq] at h
  obtain ⟨rfl,rfl⟩ := h
  have hkeep := keepsManifests_of_sameOff hfresh hsame.objects
  have hview := viewOf_committed nowMs hst hfresh hbefore hkeep hbuilt
  refine ⟨stats,pstats,rfl,?_,?_⟩
  · rw [hobj]
    refine stored_of_save (hst.toMetadataNames.congr ?_ fun v => ?_) ?_ ?_ ?_
    · exact hsame.objects _ (not_mem_commitKeys_of_ne (by simp [commitPaths]))
    · exact hsame.objects _ (not_mem_commitKeys_of_ne (by simp [commitPaths]))
    · rw [IcebergMetadata.snapshots_applyCommit,map_append,map_append]
      refine congrArg₂ _ ?_ ?_
      · rw [← hst.views]
        refine map_congr_left fun snap hsnap => ?_
        have hm := mem_map_of_mem (f := viewOf site w.objects) hsnap
        rw [hst.views] at hm
        obtain ⟨v,-,hv⟩ := mem_map.1 hm
        rw [← hv]
        exact viewOf_mono hkeep hv.symm
      · simpa [commitArtifacts] using hview
    · simp [commitArtifacts]
    · rw [IcebergMetadata.snapshots_applyCommit,map_append,nodup_append]
      refine ⟨hst.distinct, by simp, ?_⟩
      rintro i hi j hj rfl
      simp only [commitArtifacts,icebergSnapshot,map_cons,map_nil,
        mem_singleton] at hj
      exact hfresh.unused (hj ▸ hi)
  · refine ⟨fun k hk => ?_, hlocked.trans hsame.locked, hmutex.trans hsame.mutex⟩
    simp only [catalogKeys,Set.mem_ofPred_eq,not_or,not_exists] at hk
    rw [hobj,update_of_ne hk.2.1,update_of_ne (hk.2.2 _),hsame.objects k hk.1]
    rfl

/-- A commit that succeeds is its body, run behind the mutex and the lock object: the body starts two
calls later, and what it stores stays. -/
theorem run_commitSnapshot_body (h : (commitSnapshot site s nowMs).run w = (.ok id, w')) :
    ∃ w₂ w₃, (commitBody site s nowMs).run w₂ = (.ok id, w₃) ∧ w₂.objects = w.objects ∧
      (∀ n, w₂.faults n = w.faults (n + 2)) ∧ w'.objects = w₃.objects ∧
      (w₃.locked = w₂.locked → w'.locked = w.locked) ∧ w'.mutex = false := by
  obtain ⟨_,w₁,h₁,h⟩ := Prog.run_bind_ok.1 h
  rw [Prog.run_enter,Prod.mk.injEq] at h₁
  obtain ⟨-,rfl⟩ := h₁
  obtain ⟨r,w₂,h₂,h⟩ := Prog.run_bind_ok.1 h
  rw [Prog.run_tryLock,Prod.mk.injEq,Except.ok.injEq] at h₂
  obtain ⟨hr,hw₂⟩ := h₂
  match r with
  | none => simp [Prog.run_bind,Prog.run_leave] at h
  | some false => simp [Prog.run_bind,Prog.run_leave] at h
  | some true =>
    have hfree : w.faults 1 = false ∧ w.locked (site.key .commitLock) = false := by
      cases hf : w.faults 1 <;> simp_all
    simp only [World.setMutex_faults,World.tick_faults,Nat.zero_add,hfree.1,
      World.setMutex_locked,World.tick_locked,hfree.2,Bool.false_eq_true,or_self,
      if_false] at hw₂
    obtain ⟨result,w₃,h₃,h⟩ := Prog.run_bind_ok.1 h
    rw [Prog.run_attempt,Prod.mk.injEq,Except.ok.injEq] at h₃
    obtain ⟨released,w₄,h₄,h⟩ := Prog.run_bind_ok.1 h
    rw [Prog.run_unlock,Prod.mk.injEq,Except.ok.injEq] at h₄
    obtain ⟨_,w₅,h₅,h⟩ := Prog.run_bind_ok.1 h
    rw [Prog.run_leave,Prod.mk.injEq] at h₅
    cases result with
    | error e => cases h
    | ok id' =>
      cases released with
      | false => cases h
      | true =>
        have hrel : w₃.faults 0 = false := by simpa using h₄.1
        rw [hrel,if_neg Bool.false_ne_true] at h₄
        cases h
        refine ⟨w₂, w₃, Prod.ext h₃.1 h₃.2, by rw [← hw₂]; rfl, fun n => by rw [← hw₂]; rfl,
          by rw [← h₅.2,← h₄.2]; rfl, fun hlocked => ?_, by rw [← h₅.2]; rfl⟩
        have hl : w₂.locked = update w.locked (site.key .commitLock) true := by
          rw [← hw₂]
          rfl
        rw [← h₅.2,← h₄.2]
        change update w₃.locked (site.key .commitLock) false = w.locked
        rw [hlocked,hl,update_idem,← hfree.2,update_eq_self]

/-- A commit that succeeds, under any pattern of failing calls. The sixth call is the read of the
previous manifest list. -/
theorem run_commitSnapshot_ok (hst : Stored site w.objects m views)
    (hfresh : FreshSnapshot site w.objects m s.snapshotId)
    (h : (commitSnapshot site s nowMs).run w = (.ok id, w')) : ∃ stats pstats, id = s.snapshotId ∧
      Stored site w'.objects (m.applyCommit (commitArtifacts site m s nowMs stats pstats))
        (views ++ [committedView site m views s (w.faults 5)]) ∧
      (∀ k ∉ catalogKeys site s.snapshotId, w'.objects k = w.objects k) ∧
      w'.locked = w.locked ∧ w'.mutex = false := by
  obtain ⟨w₂,w₃,hbody,hobj,hfaults,hobj',hlocked,hmutex⟩ := run_commitSnapshot_body h
  obtain ⟨stats,pstats,hid,hst',hsame⟩ :=
    run_commitBody_ok (hobj ▸ hst) (hobj ▸ hfresh) hbody
  rw [hfaults,← hobj'] at hst'
  refine ⟨stats, pstats, hid, hst', fun k hk => ?_, hlocked hsame.locked, hmutex⟩
  rw [hobj',hsame.objects k hk,hobj]

theorem run_commitSnapshot_built (hst : Stored site w.objects m views)
    (hfresh : FreshSnapshot site w.objects m s.snapshotId)
    (h : (commitSnapshot site s nowMs).run w = (.ok id, w')) :
    ∃ before, (∀ k ∉ commitKeys site s.snapshotId, before k = w.objects k) ∧
      Built site m s before w'.objects (w.faults 5) := by
  obtain ⟨w₂,w₃,hbody,hobj,hfaults,hobj',-,-⟩ := run_commitSnapshot_body h
  obtain ⟨m₀,w₄,h₁,hbody⟩ := Prog.run_bind_ok.1 hbody
  obtain ⟨rfl,rfl⟩ := run_loadRawMetadata_ok (hobj ▸ hst) h₁
  obtain ⟨a,w₅,h₂,hbody⟩ := Prog.run_bind_ok.1 hbody
  obtain ⟨stats,pstats,before,rfl,hsame,hbefore,hbuilt⟩ := run_buildCommit_ok h₂
  obtain ⟨_,w₆,h₃,hbody⟩ := Prog.run_bind_ok.1 hbody
  obtain ⟨n,hsaved,-,-⟩ := run_saveMetadata_ok h₃
  rw [Prog.run_pure,Prod.mk.injEq] at hbody
  obtain ⟨-,rfl⟩ := hbody
  have hfault : w₂.tick.tick.faults 1 = w.faults 5 := hfaults 3
  have hobjects {p : MetaPath} (hp : p ∈ commitPaths s.snapshotId) :
      w'.objects (site.key p) = w₅.objects (site.key p) := by
    have hne₁ : p ≠ .versionHint := by
      rintro rfl
      simp [commitPaths] at hp
    have hne₂ : p ≠ .metadataJson (n + 1) := by
      rintro rfl
      simp [commitPaths] at hp
    rw [hobj',hsaved,update_of_ne (by simpa using hne₁),
      update_of_ne (by simpa using hne₂)]
  rw [hfault] at hbuilt
  refine ⟨before, fun k hk => (hbefore k hk).trans (congrFun hobj k), ?_, ?_, ?_⟩
  · rw [hobjects (by simp [commitPaths])]
    exact hbuilt.manifest
  · intro hne
    rw [hobjects (by simp [commitPaths])]
    exact hbuilt.deleteManifest hne
  · rw [hobjects (by simp [commitPaths])]
    exact hbuilt.manifestList

theorem run_createTable (hnone : ∀ p, w.objects (site.key p) = none) (hr : w.Reliable)
    (hm : m.snapshots = []) (hc : m.currentSnapshotId = none) :
    ((createTable site m).run w).1 = .ok () ∧
      Stored site ((createTable site m).run w).2.objects m [] := by
  have hv : (currentVersion site).run w = (.ok 0, w) := by
    rw [run_currentVersion,hr 0,World.tick_of_reliable hr,versionOf,hnone]
    rfl
  have hput (w : Store) (hr : w.Reliable) (p : MetaPath) (o : Object) :
      (putObject site (site.path p) o).run w = (.ok (), w.write (site.key p) o) := by
    rw [run_putObject,hr 0,World.tick_of_reliable hr]
    rfl
  have hrun : (createTable site m).run w = (.ok (), (w.write (site.key (.metadataJson 1))
      (.metadata m)).write (site.key .versionHint) (.versionHint (some 1))) := by
    simp only [createTable,saveMetadata,Prog.run_bind,hv,hput w hr,
      hput _ (hr.write _ _),gt_iff_lt,lt_self_iff_false,if_false,Nat.zero_add]
  rw [hrun]
  refine ⟨rfl, stored_of_save (n := 0) ⟨fun o ho => ?_, fun v o ho => ?_, hnone _⟩ ?_ ?_ ?_⟩
  · rw [hnone] at ho
    cases ho
  · rw [hnone] at ho
    cases ho
  · simp [hm]
  · simp [hm,hc]
  · simp [hm]

end Commit
end AiLake
