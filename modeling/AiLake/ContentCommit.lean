import AiLake.Content

/-! What a commit, a write and a removal do to the content of a table. -/
namespace AiLake

open StoreProgram List Function

section Entries

variable {site : Site} {m : IcebergMetadata} {e e' : DataFileEntry}

def committedEntries (site : Site) (m : IcebergMetadata) (files : List DataFileEntry) :
    List DataFileEntry :=
  (committedFiles site m files).2.map (·.stamped m.partitionSpec (m.lastSequenceNumber + 1))

/-- How a committed entry is read back: its path is made absolute, a row id may be assigned. -/
def Committed (site : Site) (m : IcebergMetadata) (e e' : DataFileEntry) : Prop :=
  ∃ r, e' = ({ e with
    path := absoluteDataPath site.warehouse e.path
    firstRowId := r } : DataFileEntry).stamped m.partitionSpec (m.lastSequenceNumber + 1)

theorem exists_mem_of_forall₂ {α β : Type} {R : α → β → Prop} {l : List α} {l' : List β}
    (h : List.Forall₂ R l l') {b : β} (hb : b ∈ l') : ∃ a ∈ l, R a b := by
  induction h with
  | nil => cases hb
  | cons hab _ ih =>
    rcases mem_cons.1 hb with rfl | hb
    · exact ⟨_,mem_cons_self,hab⟩
    · obtain ⟨a,ha,hr⟩ := ih hb
      exact ⟨a, mem_cons_of_mem _ ha, hr⟩

theorem forall₂_assignRowIds (next : Int) (files : List DataFileEntry) :
    List.Forall₂ (fun e e' => ∃ r, e' = { e with firstRowId := r }) files
      (assignRowIds next files).2 := by
  induction files generalizing next with
  | nil => exact .nil
  | cons f rest ih =>
    cases h : f.firstRowId with
    | none => simpa [assignRowIds,h] using ih _
    | some r =>
      simp only [assignRowIds,h]
      exact .cons ⟨f.firstRowId,rfl⟩ (ih next)

theorem forall₂_committedEntries (files : List DataFileEntry) :
    List.Forall₂ (Committed site m) files (committedEntries site m files) := by
  unfold committedEntries committedFiles Committed
  rw [forall₂_map_right_iff]
  split
  · have h := forall₂_assignRowIds m.nextRowId
      (files.map fun f => { f with path := absoluteDataPath site.warehouse f.path })
    rw [forall₂_map_left_iff] at h
    refine h.imp fun e e' he => ?_
    obtain ⟨r,rfl⟩ := he
    exact ⟨r,rfl⟩
  · simp only [forall₂_map_right_iff,forall₂_same]
    exact fun e _ => ⟨e.firstRowId,rfl⟩

theorem Committed.locate (h : Committed site m e e') :
    site.locate e'.path = site.locate e.path := by
  obtain ⟨r,rfl⟩ := h
  exact site.locate_absolute e.path

theorem Committed.deletionVector (h : Committed site m e e') :
    e'.deletionVector = e.deletionVector := by
  obtain ⟨r,rfl⟩ := h
  rfl

theorem Committed.sequenceNumber (h : Committed site m e e') :
    e'.sequenceNumber = m.lastSequenceNumber + 1 := by
  obtain ⟨r,rfl⟩ := h
  rfl

theorem Committed.recordCount (h : Committed site m e e') : e'.recordCount = e.recordCount := by
  obtain ⟨r,rfl⟩ := h
  rfl

theorem Committed.partitionValue (h : Committed site m e e') :
    e'.partitionValue = storedPartitionValue m.partitionSpec e.partitionValue := by
  obtain ⟨r,rfl⟩ := h
  rfl

end Entries

section WithEntries

variable {R : DataFileEntry → DataFileEntry → Prop} {files : List LiveFile}
  {entries : List DataFileEntry}

theorem entry_withEntries (h : List.Forall₂ R (files.map (·.entry)) entries) :
    (withEntries files entries).map (·.entry) = entries := by
  induction files generalizing entries with
  | nil =>
    cases h
    rfl
  | cons f rest ih =>
    cases h with
    | cons _ hrest => exact congrArg (_ :: ·) (ih hrest)

theorem forall₂_withEntries (h : List.Forall₂ R (files.map (·.entry)) entries) :
    List.Forall₂ (fun f f' => R f.entry f'.entry ∧ f'.file = f.file ∧ f'.bitmap = f.bitmap) files
      (withEntries files entries) := by
  induction files generalizing entries with
  | nil =>
    cases h
    exact .nil
  | cons f rest ih =>
    cases h with
    | cons hf hrest => exact .cons ⟨hf,rfl,rfl⟩ (ih hrest)

theorem map_withEntries {β : Type} (g g' : LiveFile → β)
    (hg : ∀ f f' : LiveFile, R f.entry f'.entry → f'.file = f.file → f'.bitmap = f.bitmap →
      g' f' = g f) (h : List.Forall₂ R (files.map (·.entry)) entries) :
    (withEntries files entries).map g' = files.map g := by
  have h₂ := forall₂_withEntries h
  have heq : List.Forall₂ (fun a b => a = b) (files.map g)
      ((withEntries files entries).map g') := by
    rw [forall₂_map_left_iff,forall₂_map_right_iff]
    exact h₂.imp fun f f' hf => (hg f f' hf.1 hf.2.1 hf.2.2).symm
  exact (forall₂_eq_eq_eq ▸ heq).symm

theorem exists_withEntries_of_mem (h : List.Forall₂ R (files.map (·.entry)) entries)
    {f : LiveFile} (hf : f ∈ files) : ∃ f' ∈ withEntries files entries,
      R f.entry f'.entry ∧ f'.file = f.file ∧ f'.bitmap = f.bitmap := by
  obtain ⟨i,hi,rfl⟩ := getElem_of_mem hf
  have h₂ := forall₂_withEntries h
  have hlen := h₂.length_eq
  exact ⟨(withEntries files entries)[i], getElem_mem _, h₂.get hi (by omega)⟩

theorem exists_of_mem_withEntries (h : List.Forall₂ R (files.map (·.entry)) entries)
    {f' : LiveFile} (hf' : f' ∈ withEntries files entries) :
    ∃ f ∈ files, R f.entry f'.entry ∧ f'.file = f.file ∧ f'.bitmap = f.bitmap := by
  obtain ⟨i,hi,rfl⟩ := getElem_of_mem hf'
  have h₂ := forall₂_withEntries h
  have hlen := h₂.length_eq
  exact ⟨files[i], getElem_mem _, h₂.get (by omega) hi⟩

end WithEntries

section Frame

variable {site : Site} {m : IcebergMetadata} {views : List View} {c : Content}
  {objects objects' : String → Option Object} {k : String} {file : DataFile}

theorem Stored.of_keeps (h : Stored site objects m views)
    (hh : objects' (site.key .versionHint) = objects (site.key .versionHint))
    (hv : ∀ v, objects' (site.key (.metadataJson v)) = objects (site.key (.metadataJson v)))
    (hm : KeepsManifests objects objects') : Stored site objects' m views where
  toMetadataNames := h.toMetadataNames.congr hh hv
  metadata := by
    have hversion : versionOf site objects' = versionOf site objects := by
      unfold versionOf
      rw [hh]
    rw [hversion,hv]
    exact h.metadata
  views := by
    rw [← h.views]
    refine map_congr_left fun snap hsnap => ?_
    have hmem : viewOf site objects snap ∈ m.snapshots.map (viewOf site objects) :=
      mem_map_of_mem hsnap
    rw [h.views] at hmem
    obtain ⟨v,-,hv⟩ := mem_map.1 hmem
    rw [← hv]
    exact viewOf_mono hm hv.symm
  current := h.current
  distinct := h.distinct

/-- The keys that hold neither the hint nor a version of the metadata. -/
def OffMetadata (site : Site) (k : String) : Prop :=
  k ≠ site.key .versionHint ∧ ∀ v, k ≠ site.key (.metadataJson v)

theorem Stored.update (h : Stored site objects m views) (hk : OffMetadata site k)
    (hman : ∀ o, objects k = some o → o.isManifest = false) (o' : Option Object) :
    Stored site (update objects k o') m views := by
  refine h.of_keeps ?_ ?_ ?_
  · rw [update_of_ne hk.1.symm]
  · intro v
    rw [update_of_ne (hk.2 v).symm]
  · intro k' o ho hmo
    have hne : k' ≠ k := by
      intro he
      rw [hman o (he ▸ ho)] at hmo
      cases hmo
    rw [update_of_ne hne,ho]

theorem keepsContent_update {o' : Option Object}
    (hk : ∀ o, objects k = some o → o.isContent = false) :
    KeepsContent objects (update objects k o') := by
  intro k' o ho hc
  have hne : k' ≠ k := by
    intro he
    rw [hk o (he ▸ ho)] at hc
    cases hc
  rw [update_of_ne hne,ho]

theorem Stored.offMetadata_of_content (h : Stored site objects m views) {o : Object}
    (ho : objects k = some o) (hc : o.isContent) : OffMetadata site k := by
  refine ⟨?_, fun v => ?_⟩ <;> rintro rfl
  · obtain ⟨version,rfl⟩ := h.hint _ ho
    cases hc
  · obtain ⟨m₀,rfl⟩ := h.versions _ _ ho
    cases hc

variable {w w' : Store}

theorem TableOf.write (h : TableOf site w m views c) (hk : OffMetadata site k)
    (hnone : w.objects k = none) (o : Object) : TableOf site (w.write k o) m views c where
  reliable := h.reliable.write k o
  stored := h.stored.update hk (by simp [hnone]) _
  location := h.location
  holds := h.holds.mono (keepsContent_update (by simp [hnone]))

theorem ne_of_dataFile {k' : String} {o : Object} (hk : objects k = some (.dataFile file))
    (ho : objects k' = some o) (hd : ∀ f, o ≠ .dataFile f) : k' ≠ k := by
  rintro rfl
  rw [hk] at ho
  exact hd file (Option.some.inj ho).symm

theorem bitmapOf_update (hk : objects k = some (.dataFile file)) {dv : Option DeletionVector}
    {bitmap : Bitmap} (hb : bitmapOf site objects dv = some bitmap) (o' : Option Object) :
    bitmapOf site (update objects k o') dv = some bitmap := by
  cases dv with
  | none => exact hb
  | some dv =>
    unfold bitmapOf at hb ⊢
    simp only at hb ⊢
    split at hb
    · rename_i blobs ho
      rw [update_of_ne (ne_of_dataFile hk ho (by simp)),ho]
      exact hb
    · cases hb

theorem TableOf.remove (h : TableOf site w m views c) (hk : w.objects k = some (.dataFile file))
    (hlive : ∀ f ∈ c.files, site.locate f.entry.path ≠ k) :
    TableOf site (w.remove k) m views c where
  reliable := h.reliable.remove k
  stored := h.stored.update (h.stored.offMetadata_of_content hk rfl)
    (fun o ho => by rw [hk] at ho; cases ho; rfl) _
  location := h.location
  holds := by
    refine ⟨h.holds.files, h.holds.deletes, fun f hf => ⟨?_,?_⟩, fun d hd => ?_, h.holds.apart⟩
    · rw [World.remove_objects,update_of_ne (hlive f hf)]
      exact (h.holds.live f hf).data
    · exact bitmapOf_update hk (h.holds.live f hf).vector _
    · have hp := h.holds.payload d hd
      rw [World.remove_objects,update_of_ne (ne_of_dataFile hk hp (by simp))]
      exact hp

def Content.overwritten (site : Site) (k : String) (file : DataFile) (c : Content) : Content :=
  ⟨c.files.map fun f => if site.locate f.entry.path = k then { f with file := file } else f,
    c.deletes⟩

theorem Content.map_overwritten {β : Type} (g : DataFileEntry → β) (k : String) (file : DataFile) :
    (c.overwritten site k file).files.map (fun f => g f.entry) =
      c.files.map fun f => g f.entry := by
  simp only [Content.overwritten,map_map]
  refine map_congr_left fun f _ => ?_
  simp only [Function.comp_apply]
  split <;> rfl

theorem TableOf.overwrite (h : TableOf site w m views c) {old : DataFile}
    (hk : w.objects k = some (.dataFile old)) (file : DataFile) :
    TableOf site (w.write k (.dataFile file)) m views (c.overwritten site k file) where
  reliable := h.reliable.write k _
  stored := h.stored.update (h.stored.offMetadata_of_content hk rfl)
    (fun o ho => by rw [hk] at ho; cases ho; rfl) _
  location := h.location
  holds := by
    refine ⟨?_, h.holds.deletes, fun f' hf' => ?_, fun d hd => ?_, ?_⟩
    · rw [h.holds.files]
      exact (Content.map_overwritten id k file).symm
    · obtain ⟨f,hf,rfl⟩ := mem_map.1 hf'
      have hs := h.holds.live f hf
      split
      · rename_i hfk
        exact ⟨by simp [hfk], bitmapOf_update hk hs.vector _⟩
      · rename_i hfk
        refine ⟨?_, bitmapOf_update hk hs.vector _⟩
        rw [World.write_objects,update_of_ne hfk,hs.data]
    · have hp := h.holds.payload d hd
      rw [World.write_objects,update_of_ne (ne_of_dataFile hk hp (by simp))]
      exact hp
    · have hkeys : (c.overwritten site k file).files.map (fun f => site.locate f.entry.path) =
          c.files.map fun f => site.locate f.entry.path :=
        Content.map_overwritten (fun e => site.locate e.path) k file
      rw [hkeys]
      exact h.holds.apart

/-- Nothing is stored under the names that come with a snapshot id. -/
structure FreshCommit (site : Site) (objects : String → Option Object) (m : IcebergMetadata)
    (id : SnapshotId) : Prop extends FreshSnapshot site objects m id where
  vector : objects (site.key (.deletionVector id)) = none
  payload : objects (site.key (.equalityDelete id)) = none

/-- A name for a new data file, outside of the table's metadata. -/
structure NewData (site : Site) (objects : String → Option Object) (path : String) : Prop where
  absent : objects (site.locate path) = none
  data : site.IsData path

theorem FreshSnapshot.update {id : SnapshotId} (h : FreshSnapshot site objects m id)
    (hk : ∀ p ∈ commitPaths id, k ≠ site.key p) (o : Option Object) :
    FreshSnapshot site (update objects k o) m id where
  unused := h.unused
  absent p hp := by rw [update_of_ne (hk p hp).symm,h.absent p hp]

theorem offMetadata_of_isData {path : String} (h : site.IsData path) :
    OffMetadata site (site.locate path) := ⟨h _, fun _ => h _⟩

theorem TableOf.writeData (h : TableOf site w m views c) {path : String}
    (hp : NewData site w.objects path) (o : Object) :
    TableOf site (w.write (site.locate path) o) m views c :=
  h.write (offMetadata_of_isData hp.data) hp.absent o

theorem keepsContent_of_commit {id : SnapshotId} (hst : Stored site objects m views)
    (hfresh : FreshSnapshot site objects m id)
    (h : ∀ k ∉ catalogKeys site id, objects' k = objects k) : KeepsContent objects objects' := by
  intro k o ho hc
  have hoff := hst.offMetadata_of_content ho hc
  rw [h k,ho]
  rintro (hcommit | hhint | ⟨v,hv⟩)
  · exact not_mem_commitKeys hfresh ho hcommit
  · exact hoff.1 hhint
  · exact hoff.2 v hv

end Frame

section Commit

variable {site : Site} {m : IcebergMetadata} {views : List View} {c : Content} {w w' : Store}
  {s : NewSnapshot} {nowMs : Int} {id : SnapshotId}

/-- The content of the next snapshot, given what the commit brings. -/
def Content.committed (c : Content) (operation : SnapshotOperation) (new : List LiveFile)
    (deletes : List LiveDelete) : Content :=
  if operation.inherits then ⟨c.files ++ new, c.deletes ++ deletes⟩ else ⟨new, deletes⟩

theorem LiveFile.Stored.committed {objects : String → Option Object} {f f' : LiveFile}
    (h : f.Stored site objects) (hc : Committed site m f.entry f'.entry) (hf : f'.file = f.file)
    (hb : f'.bitmap = f.bitmap) : f'.Stored site objects where
  data := by rw [hc.locate,hf,h.data]
  vector := by rw [hc.deletionVector,hb,h.vector]

/-- The metadata after a commit, whichever statistics it wrote. -/
def CommitOf (site : Site) (m : IcebergMetadata) (s : NewSnapshot) (nowMs : Int)
    (m' : IcebergMetadata) : Prop :=
  ∃ stats pstats, m' = m.applyCommit (commitArtifacts site m s nowMs stats pstats)

theorem TableOf.setMutex (h : TableOf site w m views c) (b : Bool) :
    TableOf site (w.setMutex b) m views c :=
  ⟨h.reliable,h.stored,h.location,h.holds⟩

theorem TableOf.keepsContent_commit (h : TableOf site w m views c)
    (hrun : (commitSnapshot site s nowMs).run w = (.ok id, w'))
    (hfresh : FreshSnapshot site w.objects m s.snapshotId) : KeepsContent w.objects w'.objects := by
  obtain ⟨stats,pstats,-,-,hobj,-⟩ := run_commitSnapshot_ok h.stored hfresh hrun
  exact keepsContent_of_commit h.stored hfresh hobj

theorem TableOf.fresh_commit (h : TableOf site w m views c)
    (hrun : (commitSnapshot site s nowMs).run w = (.ok id, w'))
    (hfresh : FreshSnapshot site w.objects m s.snapshotId) {m' : IcebergMetadata}
    (hm' : CommitOf site m s nowMs m') {other : SnapshotId}
    (ho : FreshSnapshot site w.objects m other) (hne : other ≠ s.snapshotId) :
    FreshSnapshot site w'.objects m' other where
  unused := by
    obtain ⟨stats,pstats,rfl⟩ := hm'
    rw [IcebergMetadata.snapshots_applyCommit,map_append,mem_append,not_or]
    refine ⟨ho.unused,?_⟩
    simpa [commitArtifacts,icebergSnapshot] using hne
  absent p hp := by
    obtain ⟨stats,pstats,-,-,hobj,-⟩ := run_commitSnapshot_ok h.stored hfresh hrun
    rw [hobj,ho.absent p hp]
    rintro (⟨q,hq,he⟩ | hhint | ⟨v,hv⟩)
    · rw [Site.key_inj] at he
      subst he
      simp only [commitPaths,mem_cons,not_mem_nil,or_false] at hp hq
      rcases hp with rfl | rfl | rfl | rfl | rfl <;> simp_all
    · rw [Site.key_inj] at hhint
      subst hhint
      simp [commitPaths] at hp
    · rw [Site.key_inj] at hv
      subst hv
      simp [commitPaths] at hp

theorem TableOf.commit (h : TableOf site w m views c)
    (hrun : (commitSnapshot site s nowMs).run w = (.ok id, w'))
    (hfresh : FreshSnapshot site w.objects m s.snapshotId) (new : List LiveFile)
    (deletes : List LiveDelete) (hnew : s.files = new.map (·.entry))
    (hlive : ∀ f ∈ new, f.Stored site w.objects)
    (hdel : (newView site m s).deletes = deletes.map (·.entry)) (hpay : ∀ d ∈ deletes,
      w.objects (site.locate d.entry.path) = some (.equalityDelete d.payload))
    (hapart : (((if s.operation.inherits then c.files else []) ++ new).map
      fun f => site.locate f.entry.path).Nodup) :
    ∃ m' v, CommitOf site m s nowMs m' ∧ TableOf site w' m' (views ++ [v])
      (c.committed s.operation (withEntries new (committedEntries site m s.files)) deletes) := by
  have hreliable : w'.Reliable := by
    have hr := h.reliable.run (commitSnapshot site s nowMs)
    rw [hrun] at hr
    exact hr
  obtain ⟨stats,pstats,-,hst,hobj,-⟩ := run_commitSnapshot_ok h.stored hfresh hrun
  have hkeep := keepsContent_of_commit h.stored hfresh hobj
  have hrel : List.Forall₂ (Committed site m) (new.map (·.entry))
      (committedEntries site m s.files) := hnew ▸ forall₂_committedEntries s.files
  have hkeys : (withEntries new (committedEntries site m s.files)).map
      (fun f => site.locate f.entry.path) = new.map fun f => site.locate f.entry.path :=
    map_withEntries _ _ (fun f f' hR _ _ => hR.locate) hrel
  have hstored : ∀ f ∈ withEntries new (committedEntries site m s.files),
      f.Stored site w'.objects := by
    intro f' hf'
    obtain ⟨f,hf,hR,hfile,hbitmap⟩ := exists_of_mem_withEntries hrel hf'
    exact ((hlive f hf).committed hR hfile hbitmap).mono hkeep
  have hfiles : (newView site m s).files =
      (withEntries new (committedEntries site m s.files)).map (·.entry) :=
    (entry_withEntries hrel).symm
  refine ⟨_,_,⟨stats,pstats,rfl⟩,hreliable,hst,?_,?_⟩
  · rw [IcebergMetadata.location_applyCommit,h.location]
  · have hold := h.holds.mono hkeep
    have hfault : w.faults 5 = false := h.reliable 5
    rw [lastView_concat,committedView,hfault,Content.committed]
    cases hop : s.operation.inherits with
    | true =>
      rw [hop,if_pos rfl] at hapart
      rw [if_pos ⟨rfl,Bool.false_ne_true⟩,if_pos rfl]
      refine ⟨?_,?_,?_,?_,?_⟩
      · rw [View.append,map_append,hold.files,hfiles]
      · rw [View.append,map_append,hold.deletes,hdel]
      · intro f hf
        rcases mem_append.1 hf with hf | hf
        · exact hold.live f hf
        · exact hstored f hf
      · intro d hd
        rcases mem_append.1 hd with hd | hd
        · exact hold.payload d hd
        · exact hkeep _ _ (hpay d hd) rfl
      · rw [map_append,hkeys,← map_append]
        exact hapart
    | false =>
      rw [hop,if_neg Bool.false_ne_true,nil_append] at hapart
      rw [if_neg (by simp),if_neg Bool.false_ne_true]
      refine ⟨hfiles, hdel, hstored, fun d hd => hkeep _ _ (hpay d hd) rfl, ?_⟩
      rw [hkeys]
      exact hapart

/-- A Replace: nothing of the previous snapshot is taken over, its equality deletes neither. -/
theorem TableOf.replace (h : TableOf site w m views c) {snapshotId : SnapshotId}
    {parent : Option SnapshotId} {new : List LiveFile}
    (hrun : (commitSnapshot site (replaceSnapshot snapshotId parent (new.map (·.entry)))
      nowMs).run w = (.ok id, w')) (hfresh : FreshSnapshot site w.objects m snapshotId)
    (hlive : ∀ f ∈ new, f.Stored site w.objects)
    (hapart : (new.map fun f => site.locate f.entry.path).Nodup) :
    ∃ m' v, CommitOf site m (replaceSnapshot snapshotId parent (new.map (·.entry))) nowMs m' ∧
      TableOf site w' m' (views ++ [v])
      ⟨withEntries new (committedEntries site m (new.map (·.entry))), []⟩ :=
  h.commit hrun hfresh new [] rfl hlive rfl (by simp) hapart

section CommitOf

variable {m' : IcebergMetadata} (h : CommitOf site m s nowMs m')

include h

theorem CommitOf.formatVersion : m'.formatVersion = m.formatVersion := by
  obtain ⟨stats,pstats,rfl⟩ := h
  exact IcebergMetadata.formatVersion_applyCommit ..

end CommitOf
end Commit
end AiLake
