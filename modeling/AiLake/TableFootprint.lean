import AiLake.StoreProgram.Footprint
import AiLake.TableView

/-! What the catalog code reads and writes of a table: what its metadata leads to, and the files of
the committed snapshot. -/
namespace AiLake

open StoreProgram Prog

variable {place : Place} {S : Set String} {path : String} {o : Object} {m : IcebergMetadata}
  {s : NewSnapshot} {nowMs : Int}

/-! Programs that only read. -/

theorem readOnly_getObject (path : String) : (getObject place path).ReadOnly := by
  refine (readOnly_get _).bind fun o => ?_
  cases o <;> trivial

theorem readOnly_currentVersion : (currentVersion place).ReadOnly := by
  refine (readOnly_get _).bind fun o => ?_
  split <;> exact readOnly_pure _

theorem readOnly_loadRawMetadata : (loadRawMetadata place).ReadOnly := by
  refine readOnly_currentVersion.bind fun version => (readOnly_getObject _).bind fun o => ?_
  split
  · exact readOnly_pure _
  · trivial

theorem readOnly_sizeManifests (entries : List ManifestListEntry) :
    (sizeManifests place entries).ReadOnly := by
  induction entries with
  | nil => trivial
  | cons e rest ih => exact fun _ => ih

theorem readOnly_inheritedManifests (m : IcebergMetadata) (operation : SnapshotOperation) :
    (inheritedManifests place m operation).ReadOnly := by
  unfold inheritedManifests
  split
  · split
    · trivial
    · refine (readOnly_get _).bind fun o => ?_
      split
      · exact (readOnly_sizeManifests _).bind fun _ => readOnly_pure _
      · trivial
  · trivial

theorem readOnly_readForStatistics (entries : List ManifestListEntry) :
    (readForStatistics place entries).ReadOnly := by
  induction entries with
  | nil => trivial
  | cons e rest ih =>
    rw [readForStatistics]
    split
    · exact ih
    · refine (readOnly_get _).bind fun o => ih.bind fun files => ?_
      split <;> exact readOnly_pure _

theorem readOnly_readManifests {α : Type} {content : Int} {read : String → Program (List α)}
    (hread : ∀ path, (read path).ReadOnly) (entries : List ManifestListEntry) :
    (readManifests content read entries).ReadOnly := by
  induction entries with
  | nil => trivial
  | cons e rest ih =>
    rw [readManifests]
    split
    · exact ih
    · exact (hread _).bind fun _ => ih.bind fun _ => readOnly_pure _

theorem readOnly_listFilesFromMetadata (m : IcebergMetadata) (id : Option SnapshotId) :
    (listFilesFromMetadata place m id).ReadOnly := by
  unfold listFilesFromMetadata listFromMetadata
  split
  · trivial
  · split
    · trivial
    · refine Prog.ReadOnly.bind ?_ fun entries => readOnly_readManifests (fun path => ?_) entries
      · refine (readOnly_getObject _).bind fun o => ?_
        split
        · exact readOnly_pure _
        · trivial
      · refine (readOnly_getObject _).bind fun o => ?_
        split
        · exact readOnly_pure _
        · trivial

/-! References. -/

/-- Metadata refers to the manifest lists of its snapshots, a manifest list to its manifests. -/
def objectRefs (place : Place) : Object → Set String
  | .metadata m => {k | ∃ snap ∈ m.snapshots, k = place.locate snap.manifestList}
  | .manifestList entries => {k | ∃ e ∈ entries, k = place.locate e.manifestPath}
  | _ => ∅

def tableFootprint (place : Place) (writes locks : Set String) : Footprint String Object :=
  ⟨objectRefs place, writes, locks⟩

variable {W L : Set String}

theorem within_getObject (hk : place.locate path ∈ S) :
    (getObject place path).Within (tableFootprint place W L) S
      fun o S' => S' = S ∧ objectRefs place o ⊆ S := by
  refine (within_get hk).bind fun r S' _ hr => ?_
  cases r with
  | none => exact within_fail _
  | some o => exact within_pure ⟨hr.1, hr.2 o rfl⟩

theorem within_putObject (hk : place.locate path ∈ W) (ho : objectRefs place o ⊆ S) :
    (putObject place path o).Within (tableFootprint place W L) S
      fun _ S' => place.locate path ∈ S' := by
  refine (within_put hk ho).bind fun stored S' _ hstored => ?_
  cases stored with
  | false => exact within_fail _
  | true => exact within_pure (hstored rfl)

theorem within_sizeManifests {entries : List ManifestListEntry}
    (h : ∀ e ∈ entries, place.locate e.manifestPath ∈ S) :
    (sizeManifests place entries).Within (tableFootprint place W L) S fun _ _ => True := by
  induction entries generalizing S with
  | nil => trivial
  | cons e rest ih =>
    refine (within_head (h e List.mem_cons_self)).bind fun _ S' hS' _ => ih fun e' he' => ?_
    exact hS' (h e' (List.mem_cons_of_mem e he'))

theorem within_inheritedManifests {operation : SnapshotOperation}
    (hm : objectRefs place (.metadata m) ⊆ S) :
    (inheritedManifests place m operation).Within (tableFootprint place W L) S
      fun entries S' => objectRefs place (.manifestList entries) ⊆ S' := by
  have hnone (S' : Set String) : objectRefs place (.manifestList []) ⊆ S' := by
    rintro k ⟨e,he,-⟩
    cases he
  unfold inheritedManifests
  split
  · split
    · exact within_pure (hnone S)
    · rename_i prev hprev
      have hlist : place.locate prev.manifestList ∈ S := hm ⟨prev, List.mem_of_getLast? hprev, rfl⟩
      refine (within_get hlist).bind fun r S' _ hr => ?_
      split
      · rename_i entries
        have hrefs : objectRefs place (.manifestList entries) ⊆ S' := hr.1 ▸ hr.2 _ rfl
        refine (within_sizeManifests fun e he => hrefs ⟨e,he,rfl⟩).bind fun _ S₂ hS₂ _ => ?_
        exact within_pure (hrefs.trans hS₂)
      · exact within_pure (hnone S')
  · exact within_pure (hnone S)

theorem within_writeDeleteManifest {id : SnapshotId} {seq : Int} {deletes : List EqualityDeleteFile}
    (hk : place.key (.deleteManifest id) ∈ W) :
    (writeDeleteManifest place id seq deletes).Within (tableFootprint place W L) S
      fun entries S' => objectRefs place (.manifestList entries) ⊆ S' := by
  unfold writeDeleteManifest
  split
  · refine within_pure ?_
    rintro k ⟨e,he,-⟩
    cases he
  · refine (within_putObject hk (Set.empty_subset _)).bind fun _ S' _ hmem => within_pure ?_
    rintro k ⟨e,he,rfl⟩
    rw [List.mem_singleton.1 he]
    exact hmem

theorem within_putStatistics {p : MetaPath} {ref : StatisticsRef} (hk : place.key p ∈ W)
    (ho : objectRefs place o = ∅) :
    (do if ← Prog.put (place.locate (place.path p)) o then pure (some ref) else pure none :
      Program (Option StatisticsRef)).Within (tableFootprint place W L) S fun _ _ => True := by
  refine (within_put hk ?_).bind fun stored S' _ _ => ?_
  · exact ho.subset.trans (Set.empty_subset S)
  · cases stored <;> trivial

theorem within_readForStatistics {entries : List ManifestListEntry}
    (h : objectRefs place (.manifestList entries) ⊆ S) :
    (readForStatistics place entries).Within (tableFootprint place W L) S fun _ _ => True := by
  induction entries generalizing S with
  | nil => trivial
  | cons e rest ih =>
    have hrest : objectRefs place (.manifestList rest) ⊆ S := by
      rintro k ⟨e',he',rfl⟩
      exact h ⟨e', List.mem_cons_of_mem e he', rfl⟩
    rw [readForStatistics]
    split
    · exact ih hrest
    · refine (within_get (h ⟨e,List.mem_cons_self,rfl⟩)).bind fun r S' hS' _ => ?_
      refine (ih (hrest.trans hS')).bind fun files _ _ _ => ?_
      split <;> exact within_pure trivial

theorem objectRefs_metadata_applyCommit (a : CommitArtifacts) :
    objectRefs place (.metadata (m.applyCommit a)) =
      insert (place.locate a.snapshot.manifestList) (objectRefs place (.metadata m)) := by
  ext k
  simp [objectRefs,or_and_right,exists_or,or_comm]

theorem within_buildCommit (hm : objectRefs place (.metadata m) ⊆ S)
    (hW : ∀ p ∈ commitPaths s.snapshotId, place.key p ∈ W) :
    (buildCommit place m s nowMs).Within (tableFootprint place W L) S
      fun a S' => objectRefs place (.metadata (m.applyCommit a)) ⊆ S' := by
  have hmanifest := hW (.manifest s.snapshotId) (by simp [commitPaths])
  have hlist := hW (.manifestList s.snapshotId) (by simp [commitPaths])
  refine (within_putObject hmanifest (Set.empty_subset _)).bind fun _ S₁ hS₁ hown => ?_
  refine (within_inheritedManifests (hm.trans hS₁)).bind fun inherited S₂ hS₂ hinherited => ?_
  refine (within_writeDeleteManifest (hW _ (by simp [commitPaths]))).bind
    fun deletes S₃ hS₃ hdeletes => ?_
  have hentries : objectRefs place (.manifestList
      (inherited ++ ⟨place.path (.manifest s.snapshotId), 0⟩ :: deletes)) ⊆ S₃ := by
    rintro k ⟨e,he,rfl⟩
    rcases List.mem_append.1 he with he | he
    · exact hS₃ (hinherited ⟨e,he,rfl⟩)
    · rcases List.mem_cons.1 he with rfl | he
      · exact hS₃ (hS₂ hown)
      · exact hdeletes ⟨e,he,rfl⟩
  refine (within_putObject hlist hentries).bind fun _ S₄ hS₄ hstored => ?_
  refine Prog.Within.bind (Q := fun _ _ => True) ?_ fun statistics S₅ hS₅ _ => ?_
  · unfold writeStatistics
    split
    · exact within_putStatistics (hW _ (by simp [commitPaths])) rfl
    · exact within_pure trivial
  refine Prog.Within.bind (Q := fun _ _ => True) ?_ fun partitionStatistics S₆ hS₆ _ => ?_
  · unfold writePartitionStatistics
    split
    · exact within_pure trivial
    · split
      · exact within_pure trivial
      · refine (within_readForStatistics ((hentries.trans hS₄).trans hS₅)).bind fun _ _ _ _ => ?_
        exact within_putStatistics (hW _ (by simp [commitPaths])) rfl
  refine within_pure ?_
  rw [objectRefs_metadata_applyCommit]
  refine Set.insert_subset (hS₆ (hS₅ hstored)) ?_
  exact hm.trans (hS₁.trans (hS₂.trans (hS₃.trans (hS₄.trans (hS₅.trans hS₆)))))

theorem within_listFilesFromMetadata {id : Option SnapshotId}
    (hm : objectRefs place (.metadata m) ⊆ S) :
    (listFilesFromMetadata place m id).Within (tableFootprint place W L) S fun _ _ => True := by
  have hread {entries : List ManifestListEntry} {S' : Set String}
      (h : objectRefs place (.manifestList entries) ⊆ S') :
      (readManifests 0 (getManifest place) entries).Within (tableFootprint place W L) S'
        fun _ _ => True := by
    induction entries generalizing S' with
    | nil => trivial
    | cons e rest ih =>
      have hrest : objectRefs place (.manifestList rest) ⊆ S' := by
        rintro k ⟨e',he',rfl⟩
        exact h ⟨e', List.mem_cons_of_mem e he', rfl⟩
      rw [readManifests]
      split
      · exact ih hrest
      · refine Prog.Within.bind (Q := fun _ _ => True) ?_ fun entries S₁ hS₁ _ => ?_
        · refine (within_getObject (h ⟨e,List.mem_cons_self,rfl⟩)).bind fun o _ _ _ => ?_
          split
          · exact within_pure trivial
          · exact within_fail _
        · exact (ih (hrest.trans hS₁)).bind fun _ _ _ _ => within_pure trivial
  unfold listFilesFromMetadata listFromMetadata
  split
  · trivial
  · split
    · trivial
    · rename_i snap hsnap
      have hlist : place.locate snap.manifestList ∈ S :=
        hm ⟨snap, List.mem_of_find?_eq_some hsnap, rfl⟩
      refine Prog.Within.bind (Q := fun entries S' => objectRefs place (.manifestList entries) ⊆ S')
        ?_ fun entries S' _ hentries => hread hentries
      refine (within_getObject hlist).bind fun o S' _ ho => ?_
      split
      · exact within_pure (ho.1 ▸ ho.2)
      · exact within_fail _

end AiLake
