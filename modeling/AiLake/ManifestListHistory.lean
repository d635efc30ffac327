import AiLake.StoreProgram.History
import AiLake.ManifestList
import AiLake.ContentCommit
import AiLake.Listing

/-! Manifest lists along a chain of commits: the numbers of a manifest, the manifest that gets a
commit's rows, the sequence number that readers see for a file. -/
namespace AiLake

open StoreProgram List

def addedRows (files : List DataFileEntry) : Int := (files.map fun f => (f.recordCount : Int)).sum

/-- A commit with the records of its manifest list, the files of its data manifest, and what its
snapshot lists. -/
structure ListedCommit where
  snapshot : IcebergSnapshot
  list : List ManifestFile
  files : List DataFileEntry
  view : View

namespace ListedCommit

def names (c : ListedCommit) (path : String) : Bool :=
  (c.list.map ManifestFile.manifestPath).contains path

def appends (c : ListedCommit) : Prop := ("operation", "append") ∈ c.snapshot.summary

end ListedCommit

structure ListedTable where
  world : Store
  metadata : IcebergMetadata
  commits : List ListedCommit

/-- A commit that succeeds. Its list is written from the manifests that readers find in it; their
lengths are only recorded. -/
structure ListStep (site : Site) (t : ListedTable) (c : NewSnapshot × Int) (t' : ListedTable) :
    Prop where
  fresh : FreshSnapshot site t.world.objects t.metadata c.1.snapshotId
  run : ∃ id, (commitSnapshot site c.1 c.2).run t.world = (.ok id, t'.world)
  stored : Stored site t'.world.objects t'.metadata (t'.commits.map (·.view))
  snapshots : t'.metadata.snapshots = t'.commits.map (·.snapshot)
  commits : ∃ new entries lengths, t'.commits = t.commits ++ [new] ∧
    t'.world.objects (site.key (.manifestList c.1.snapshotId)) = some (.manifestList entries) ∧
    lengths.length = entries.length ∧
    new.list = writeManifestListMultiTyped (entries.zip lengths) c.1.snapshotId
      (t.metadata.lastSequenceNumber + 1) (addedRows c.1.files) ∧
    manifestFiles site t'.world.objects (site.path (.manifest c.1.snapshotId)) = some new.files

/-- Every manifest has the numbers of the commit that first listed it, a commit's rows are counted
at its data manifest, and an appended file keeps its sequence number. -/
structure Bookkept (site : Site) (t : ListedTable) : Prop where
  added : ∀ c ∈ t.commits, ∀ r ∈ c.list, ∀ d ∈ t.commits.find? (·.names r.manifestPath),
    r.sequenceNumber = d.snapshot.sequenceNumber ∧ r.addedSnapshotId = d.snapshot.snapshotId
  dataRows : ∀ c ∈ t.commits, ∀ r ∈ c.list,
    r.manifestPath = site.path (.manifest c.snapshot.snapshotId) →
      r.addedRowsCount = addedRows c.files
  deleteRows : ∀ c ∈ t.commits, ∀ r ∈ c.list,
    r.manifestPath = site.path (.deleteManifest c.snapshot.snapshotId) → r.addedRowsCount = 0
  lasting : ∀ before c after, t.commits = before ++ c :: after → c.appends → ∀ f ∈ c.files,
    ∀ d ∈ c :: after, ∀ g ∈ d.view.files, g.path = f.path → g.sequenceNumber = f.sequenceNumber

/-- A commit that takes over no manifest, counts no rows next to a delete manifest, and brings no
path that was appended before. -/
structure PlainCommit (site : Site) (t : ListedTable) (s : NewSnapshot) : Prop where
  alone : s.operation.inherits = false ∨ t.metadata.snapshots = [] ∨ t.world.faults 5 = true
  rows : s.equalityDeleteFiles = [] ∨ addedRows s.files = 0
  paths : ∀ d ∈ t.commits, d.appends → ∀ f ∈ d.files, ∀ g ∈ s.files,
    absoluteDataPath site.warehouse g.path ≠ f.path

structure PlainStep (site : Site) (t : ListedTable) (c : NewSnapshot × Int) (t' : ListedTable) :
    Prop extends ListStep site t c t' where
  plain : PlainCommit site t c.1

section Step

variable {site : Site} {t t' : ListedTable} {c : NewSnapshot × Int}

theorem Stored.unique {objects : String → Option Object} {m m' : IcebergMetadata}
    {views views' : List View} (h : Stored site objects m views)
    (h' : Stored site objects m' views') : m = m' ∧ views = views' := by
  have hm : m = m' := by
    have heq := h.metadata.symm.trans h'.metadata
    cases heq
    rfl
  subst hm
  refine ⟨rfl,?_⟩
  have hviews := h.views.symm.trans h'.views
  exact map_injective_iff.2 (Option.some_injective _) hviews

theorem Place.path_inj {p q : MetaPath} : site.path p = site.path q ↔ p = q := by
  constructor
  · intro h
    have hkey : site.key p = site.key q := by rw [← site.locate_path,h,site.locate_path]
    exact site.key_inj.1 hkey
  · rintro rfl
    rfl

structure Listed (site : Site) (t : ListedTable) : Prop where
  stored : Stored site t.world.objects t.metadata (t.commits.map (·.view))
  snapshots : t.metadata.snapshots = t.commits.map (·.snapshot)
  lists : ∀ c ∈ t.commits, t.world.objects (site.locate c.snapshot.manifestList) =
    some (.manifestList (c.list.map ManifestFile.entry))
  sequence : ∀ c ∈ t.commits, c.snapshot.sequenceNumber ≤ t.metadata.lastSequenceNumber
  own : ∀ c ∈ t.commits, c.names (site.path (.manifest c.snapshot.snapshotId)) = true
  known : ∀ c ∈ t.commits, ∀ r ∈ c.list, ∃ d ∈ t.commits,
    r.manifestPath = site.path (.manifest d.snapshot.snapshotId) ∨
      r.manifestPath = site.path (.deleteManifest d.snapshot.snapshotId)
  files : ∀ c ∈ t.commits, ∀ f ∈ c.files, f.sequenceNumber = c.snapshot.sequenceNumber

def takenOver (t : ListedTable) (s : NewSnapshot) : List ManifestListEntry :=
  if s.operation.inherits ∧ ¬t.world.faults 5 then
    (t.commits.getLast?.map fun c => c.list.map ManifestFile.entry).getD []
  else []

def ownManifests (site : Site) (s : NewSnapshot) : List ManifestListEntry :=
  ⟨site.path (.manifest s.snapshotId), 0⟩ ::
    deleteEntries site s.snapshotId (committedDeletes site s.equalityDeleteFiles)

structure NewCommit (site : Site) (t : ListedTable) (s : NewSnapshot) (new : ListedCommit) :
    Prop where
  snapshotId : new.snapshot.snapshotId = s.snapshotId
  sequenceNumber : new.snapshot.sequenceNumber = t.metadata.lastSequenceNumber + 1
  manifestList : new.snapshot.manifestList = site.path (.manifestList s.snapshotId)
  list : ∃ lengths, lengths.length = (takenOver t s ++ ownManifests site s).length ∧
    new.list = writeManifestListMultiTyped ((takenOver t s ++ ownManifests site s).zip lengths)
      s.snapshotId (t.metadata.lastSequenceNumber + 1) (addedRows s.files)
  files : new.files = committedEntries site t.metadata s.files
  view : new.view = committedView site t.metadata (t.commits.map (·.view)) s (t.world.faults 5)

theorem Listed.inheritedList_eq (h : Listed site t) {s : NewSnapshot}
    (hfresh : FreshSnapshot site t.world.objects t.metadata s.snapshotId)
    {before : String → Option Object}
    (hbefore : ∀ k ∉ commitKeys site s.snapshotId, before k = t.world.objects k) :
    inheritedList site t.metadata s.operation before (t.world.faults 5) = takenOver t s := by
  unfold inheritedList takenOver
  by_cases hop : s.operation.inherits = true
  · rw [if_pos hop,h.snapshots,getLast?_map]
    cases hlast : t.commits.getLast? with
    | none => simp
    | some c =>
      have hlist := h.lists c (mem_of_getLast? hlast)
      have hsame := (hbefore _ (not_mem_commitKeys hfresh hlist)).trans hlist
      cases hf : t.world.faults 5 with
      | true => simp
      | false => simp [hop,hsame]
  · simp [hop]

theorem ListStep.newCommit (h : Listed site t) (hs : ListStep site t c t') :
    ∃ new, t'.commits = t.commits ++ [new] ∧ NewCommit site t c.1 new ∧
      t'.metadata.lastSequenceNumber = t.metadata.lastSequenceNumber + 1 ∧
      t'.world.objects (site.key (.manifestList c.1.snapshotId)) =
        some (.manifestList (takenOver t c.1 ++ ownManifests site c.1)) := by
  obtain ⟨id,hrun⟩ := hs.run
  obtain ⟨stats,pstats,-,hst,-⟩ := run_commitSnapshot_ok h.stored hs.fresh hrun
  obtain ⟨before,hbefore,hbuilt⟩ := run_commitSnapshot_built h.stored hs.fresh hrun
  obtain ⟨new,entries,lengths,hcommits,hentries,hlen,hlist,hfiles⟩ := hs.commits
  obtain ⟨hm,hviews⟩ := hs.stored.unique hst
  have hlast : new.snapshot = icebergSnapshot site t.metadata c.1 c.2 := by
    have hsnap := hs.snapshots
    rw [hm,IcebergMetadata.snapshots_applyCommit,hcommits,map_append] at hsnap
    have hpair := append_inj_right' hsnap rfl
    exact (List.cons.inj hpair).1.symm
  have hview : new.view =
      committedView site t.metadata (t.commits.map (·.view)) c.1 (t.world.faults 5) := by
    rw [hcommits,map_append] at hviews
    exact (List.cons.inj (append_inj_right' hviews rfl)).1
  have hmanifests : entries = takenOver t c.1 ++ ownManifests site c.1 := by
    have heq := hbuilt.manifestList.symm.trans hentries
    rw [h.inheritedList_eq hs.fresh hbefore] at heq
    cases heq
    rfl
  have hnew : new.files = committedEntries site t.metadata c.1.files := by
    rw [manifestFiles,Place.locate_path,hbuilt.manifest,Option.some.injEq,
      readManifestFile_writeManifestFile] at hfiles
    exact hfiles.symm
  subst hmanifests
  refine ⟨new,hcommits,⟨?_,?_,?_,⟨lengths,hlen,hlist⟩,hnew,hview⟩,?_,hentries⟩
  · rw [hlast]
    rfl
  · rw [hlast]
    rfl
  · rw [hlast]
    rfl
  · rw [hm,IcebergMetadata.lastSequenceNumber_applyCommit]
    rfl

theorem addedRows_of_forall₂ {files files' : List DataFileEntry}
    (h : List.Forall₂ (fun e e' => e'.recordCount = e.recordCount) files files') :
    addedRows files' = addedRows files := by
  unfold addedRows
  induction h with
  | nil => rfl
  | cons h _ ih => simp only [map_cons,sum_cons,h,ih]

theorem addedRows_committedEntries (m : IcebergMetadata) (files : List DataFileEntry) :
    addedRows (committedEntries site m files) = addedRows files :=
  addedRows_of_forall₂ ((forall₂_committedEntries files).imp fun _ _ h => h.recordCount)

theorem mem_writeManifestListMultiTyped {manifests : List (ManifestListEntry × Int)}
    {snapshotId : SnapshotId} {sequenceNumber rows : Int} {r : ManifestFile}
    (h : r ∈ writeManifestListMultiTyped manifests snapshotId sequenceNumber rows) :
    r.sequenceNumber = sequenceNumber ∧ r.addedSnapshotId = snapshotId ∧
      (r.addedRowsCount = rows ∨ r.addedRowsCount = 0) := by
  obtain ⟨⟨e,i⟩,-,rfl⟩ := mem_map.1 h
  refine ⟨rfl,rfl,?_⟩
  dsimp only
  split
  · exact .inl rfl
  · exact .inr rfl

theorem addedRowsCount_getLast {manifests : List (ManifestListEntry × Int)}
    {snapshotId : SnapshotId} {sequenceNumber rows : Int} {r : ManifestFile}
    (h : (writeManifestListMultiTyped manifests snapshotId sequenceNumber rows).getLast? = some r) :
    r.addedRowsCount = rows := by
  rw [getLast?_eq_getElem?] at h
  obtain ⟨hi,rfl⟩ := List.getElem?_eq_some_iff.1 h
  have hlen : (writeManifestListMultiTyped manifests snapshotId sequenceNumber rows).length =
      manifests.length := by
    simp [writeManifestListMultiTyped]
  have hpos : manifests.length - 1 + 1 = manifests.length := by
    rw [hlen] at hi
    omega
  simp [writeManifestListMultiTyped,hpos]

namespace NewCommit

variable {s : NewSnapshot} {new : ListedCommit}

theorem entries (h : NewCommit site t s new) :
    new.list.map ManifestFile.entry = takenOver t s ++ ownManifests site s := by
  obtain ⟨lengths,hlen,hlist⟩ := h.list
  rw [hlist,map_entry_writeManifestListMultiTyped,map_fst_zip hlen.ge]

theorem record (h : NewCommit site t s new) {r : ManifestFile} (hr : r ∈ new.list) :
    r.sequenceNumber = new.snapshot.sequenceNumber ∧
      r.addedSnapshotId = new.snapshot.snapshotId ∧
      (r.addedRowsCount = addedRows s.files ∨ r.addedRowsCount = 0) ∧
      r.entry ∈ takenOver t s ++ ownManifests site s := by
  have hentry : r.entry ∈ new.list.map ManifestFile.entry := mem_map_of_mem hr
  rw [h.entries] at hentry
  obtain ⟨lengths,-,hlist⟩ := h.list
  rw [hlist] at hr
  obtain ⟨hseq,hid,hrows⟩ := mem_writeManifestListMultiTyped hr
  exact ⟨hseq.trans h.sequenceNumber.symm, hid.trans h.snapshotId.symm, hrows, hentry⟩

theorem names_of_mem (h : NewCommit site t s new) {e : ManifestListEntry}
    (he : e ∈ takenOver t s ++ ownManifests site s) : ∃ r ∈ new.list, r.entry = e := by
  rw [← h.entries] at he
  exact mem_map.1 he

theorem mem_ownManifests {e : ManifestListEntry} (he : e ∈ ownManifests site s) :
    e.manifestPath = site.path (.manifest s.snapshotId) ∨
      e.manifestPath = site.path (.deleteManifest s.snapshotId) ∧ s.equalityDeleteFiles ≠ [] := by
  rcases mem_cons.1 he with rfl | he
  · exact .inl rfl
  · right
    unfold deleteEntries committedDeletes at he
    split at he
    · cases he
    · rename_i hne
      obtain rfl := mem_singleton.1 he
      exact ⟨rfl, by simpa using hne⟩

theorem view_eq (h : NewCommit site t s new) :
    new.view = if s.operation.inherits ∧ ¬t.world.faults 5 then
      (lastView (t.commits.map (·.view))).append (newView site t.metadata s)
    else newView site t.metadata s := h.view

theorem files_subset_view (h : NewCommit site t s new) {f : DataFileEntry} (hf : f ∈ new.files) :
    f ∈ new.view.files := by
  rw [h.files] at hf
  rw [h.view_eq]
  split
  · exact mem_append_right _ hf
  · exact hf

theorem file (h : NewCommit site t s new) {f : DataFileEntry} (hf : f ∈ new.files) :
    f.sequenceNumber = new.snapshot.sequenceNumber ∧
      ∃ e ∈ s.files, f.path = absoluteDataPath site.warehouse e.path := by
  rw [h.files] at hf
  obtain ⟨e,he,hcommitted⟩ := exists_mem_of_forall₂ (forall₂_committedEntries s.files) hf
  refine ⟨hcommitted.sequenceNumber.trans h.sequenceNumber.symm, e, he, ?_⟩
  obtain ⟨r,rfl⟩ := hcommitted
  rfl

theorem exists_file (h : NewCommit site t s new) {e : DataFileEntry} (he : e ∈ s.files) :
    ∃ f ∈ new.files, f.path = absoluteDataPath site.warehouse e.path := by
  rw [h.files]
  obtain ⟨f,hf,hcommitted⟩ := exists_mem_of_forall₂ (forall₂_committedEntries s.files).flip he
  refine ⟨f,hf,?_⟩
  obtain ⟨r,rfl⟩ := hcommitted
  rfl

end NewCommit

theorem ListStep.keepsManifests (h : Listed site t) (hs : ListStep site t c t') :
    KeepsManifests t.world.objects t'.world.objects := by
  obtain ⟨id,hrun⟩ := hs.run
  obtain ⟨stats,pstats,-,-,hframe,-⟩ := run_commitSnapshot_ok h.stored hs.fresh hrun
  intro k o ho hman
  rw [hframe k,ho]
  rintro (hk | rfl | ⟨v,rfl⟩)
  · exact not_mem_commitKeys hs.fresh ho hk
  · obtain ⟨version,rfl⟩ := h.stored.hint o ho
    cases hman
  · obtain ⟨m,rfl⟩ := h.stored.versions v o ho
    cases hman

theorem mem_takenOver {s : NewSnapshot} {e : ManifestListEntry}
    (he : e ∈ takenOver t s) : ∃ d ∈ t.commits, ∃ r ∈ d.list, r.entry = e := by
  unfold takenOver at he
  split at he
  · cases hlast : t.commits.getLast? with
    | none => simp [hlast] at he
    | some d =>
      rw [hlast,Option.map_some,Option.getD_some] at he
      obtain ⟨r,hr,hentry⟩ := mem_map.1 he
      exact ⟨d, mem_of_getLast? hlast, r, hr, hentry⟩
  · cases he

theorem Listed.step (h : Listed site t) (hs : ListStep site t c t') : Listed site t' := by
  obtain ⟨new,hcommits,hnew,hlast,hlist⟩ := hs.newCommit h
  have hmem : ∀ d ∈ t'.commits, d ∈ t.commits ∨ d = new := by
    intro d hd
    rw [hcommits] at hd
    simpa using hd
  have hold : ∀ d ∈ t.commits, d ∈ t'.commits := by
    intro d hd
    rw [hcommits]
    exact mem_append_left _ hd
  have hnew' : new ∈ t'.commits := by
    rw [hcommits]
    exact mem_append_right _ (mem_singleton_self new)
  refine ⟨hs.stored, hs.snapshots, fun d hd => ?_, fun d hd => ?_, fun d hd => ?_,
    fun d hd r hr => ?_, fun d hd f hf => ?_⟩
  · rcases hmem d hd with hd | rfl
    · exact hs.keepsManifests h _ _ (h.lists d hd) rfl
    · rw [hnew.manifestList,site.locate_path,hlist,hnew.entries]
  · rcases hmem d hd with hd | rfl
    · have := h.sequence d hd
      omega
    · rw [hnew.sequenceNumber,hlast]
  · rcases hmem d hd with hd | rfl
    · exact h.own d hd
    · obtain ⟨r,hr,hentry⟩ := hnew.names_of_mem (mem_append_right _ mem_cons_self)
      rw [hnew.snapshotId]
      have hpath := congrArg ManifestListEntry.manifestPath hentry
      simp only [ListedCommit.names,contains_iff_mem]
      exact mem_map.2 ⟨r,hr,hpath⟩
  · rcases hmem d hd with hd | rfl
    · obtain ⟨d',hd',hpath⟩ := h.known d hd r hr
      exact ⟨d', hold d' hd', hpath⟩
    · obtain ⟨-,-,-,hentry⟩ := hnew.record hr
      rcases mem_append.1 hentry with hentry | hentry
      · obtain ⟨d',hd',r',hr',hsame⟩ := mem_takenOver hentry
        obtain ⟨d₀,hd₀,hpath⟩ := h.known d' hd' r' hr'
        have hpaths : r'.manifestPath = r.manifestPath :=
          congrArg ManifestListEntry.manifestPath hsame
        exact ⟨d₀, hold d₀ hd₀, hpaths ▸ hpath⟩
      · refine ⟨d,hd,?_⟩
        rw [hnew.snapshotId]
        exact (NewCommit.mem_ownManifests hentry).imp_right And.left
  · rcases hmem d hd with hd | rfl
    · exact h.files d hd f hf
    · exact (hnew.file hf).1

theorem names_of_mem {d : ListedCommit} {r : ManifestFile} (hr : r ∈ d.list) :
    d.names r.manifestPath = true := by
  rw [ListedCommit.names,contains_iff_mem]
  exact mem_map_of_mem hr

theorem find?_concat {commits : List ListedCommit} {d new : ListedCommit} {path : String}
    (hd : d ∈ commits) (hnames : d.names path = true) :
    (commits ++ [new]).find? (·.names path) = commits.find? (·.names path) := by
  obtain ⟨e,he⟩ := Option.isSome_iff_exists.1
    (find?_isSome.2 ⟨d,hd,hnames⟩ : (commits.find? (·.names path)).isSome = true)
  rw [find?_append,he,Option.some_or]

theorem Bookkept.of_concat {new : ListedCommit} (hcommits : t'.commits = t.commits ++ [new])
    (h : Bookkept site t') : Bookkept site t := by
  have hold : ∀ d ∈ t.commits, d ∈ t'.commits := by
    intro d hd
    rw [hcommits]
    exact mem_append_left _ hd
  refine ⟨fun d hd r hr e he => ?_, fun d hd => h.dataRows d (hold d hd),
    fun d hd => h.deleteRows d (hold d hd), ?_⟩
  · refine h.added d (hold d hd) r hr e ?_
    rw [hcommits,find?_concat hd (names_of_mem hr)]
    exact he
  · intro before d after heq happ f hf e he
    have heq' : t'.commits = before ++ d :: (after ++ [new]) := by
      rw [hcommits,heq,append_assoc,cons_append]
    exact h.lasting before d (after ++ [new]) heq' happ f hf e
      (mem_append_left [new] he : e ∈ (d :: after) ++ [new])

theorem PlainCommit.of_bookkept {new : ListedCommit} {s : NewSnapshot} (h : Listed site t)
    (hcommits : t'.commits = t.commits ++ [new]) (hnew : NewCommit site t s new)
    (hkept : Bookkept site t') : PlainCommit site t s := by
  have hmem : new ∈ t'.commits := by
    rw [hcommits]
    exact mem_append_right _ (mem_singleton_self new)
  refine ⟨?_, ?_, fun d hd happ f hf g hg heq => ?_⟩
  · -- a manifest that is taken over gets a sequence number that its own commit did not have
    by_contra hcon
    simp only [not_or,Bool.not_eq_false,Bool.not_eq_true] at hcon
    obtain ⟨hop,hne,hfault⟩ := hcon
    have hne' : t.commits ≠ [] := by
      intro hnil
      rw [h.snapshots,hnil] at hne
      exact hne rfl
    obtain ⟨d,hlast⟩ : ∃ d, t.commits.getLast? = some d :=
      ⟨_, getLast?_eq_some_getLast hne'⟩
    have hd := mem_of_getLast? hlast
    have hown := h.own d hd
    rw [ListedCommit.names,contains_iff_mem] at hown
    obtain ⟨r,hr,hpath⟩ := mem_map.1 hown
    have htaken : r.entry ∈ takenOver t s := by
      rw [takenOver,if_pos ⟨hop, by simp [hfault]⟩,hlast,Option.map_some,Option.getD_some]
      exact mem_map_of_mem hr
    obtain ⟨r',hr',hentry⟩ := hnew.names_of_mem (mem_append_left _ htaken)
    have hsame : r'.manifestPath = r.manifestPath := congrArg ManifestListEntry.manifestPath hentry
    obtain ⟨e,he⟩ := Option.isSome_iff_exists.1 (find?_isSome.2 ⟨d, hd, names_of_mem hr⟩ :
      (t.commits.find? (·.names r.manifestPath)).isSome = true)
    have hadded := hkept.added new hmem r' hr' e (by
      rw [hsame,hcommits,find?_concat hd (names_of_mem hr)]
      exact he)
    have hseq := (hnew.record hr').1
    have hle := h.sequence e (mem_of_find?_eq_some he)
    have hnewseq := hnew.sequenceNumber
    omega
  · -- the delete manifest is the last of its list
    by_cases hdel : s.equalityDeleteFiles = []
    · exact .inl hdel
    · right
      have hlast : (takenOver t s ++ ownManifests site s).getLast? =
          some ⟨site.path (.deleteManifest s.snapshotId), 1⟩ := by
        have hne : ¬(committedDeletes site s.equalityDeleteFiles).isEmpty = true := by
          simpa [committedDeletes] using hdel
        simp [ownManifests,deleteEntries,hne]
      rw [← hnew.entries,getLast?_map] at hlast
      obtain ⟨r,hr,hentry⟩ := Option.map_eq_some_iff.1 hlast
      have hpath : r.manifestPath = site.path (.deleteManifest new.snapshot.snapshotId) := by
        rw [hnew.snapshotId]
        exact congrArg ManifestListEntry.manifestPath hentry
      have hzero := hkept.deleteRows new hmem r (mem_of_getLast? hr) hpath
      obtain ⟨lengths,-,hlist⟩ := hnew.list
      rw [hlist] at hr
      rw [← addedRowsCount_getLast hr,hzero]
  · -- a path that comes again comes with a new sequence number
    obtain ⟨before,after,hsplit⟩ := append_of_mem hd
    obtain ⟨g',hg',hpath⟩ := hnew.exists_file hg
    have hcommits' : t'.commits = before ++ d :: (after ++ [new]) := by
      rw [hcommits,hsplit,append_assoc,cons_append]
    have hseq := hkept.lasting before d (after ++ [new]) hcommits' happ f hf new (by simp) g'
      (hnew.files_subset_view hg') (hpath.trans heq)
    have hnewfile := (hnew.file hg').1
    have hnewseq := hnew.sequenceNumber
    have hfile := h.files d hd f hf
    have hle := h.sequence d hd
    omega

theorem PlainCommit.takenOver_eq {s : NewSnapshot} (h : Listed site t)
    (hplain : PlainCommit site t s) : takenOver t s = [] := by
  unfold takenOver
  rcases hplain.alone with hop | hnil | hfault
  · simp [hop]
  · have hcommits : t.commits = [] := by
      rw [h.snapshots] at hnil
      exact map_eq_nil_iff.1 hnil
    simp [hcommits]
  · simp [hfault]

theorem PlainCommit.view_eq {new : ListedCommit} {s : NewSnapshot} (h : Listed site t)
    (hplain : PlainCommit site t s) (hnew : NewCommit site t s new) :
    new.view = newView site t.metadata s := by
  rw [hnew.view_eq]
  split
  · rename_i hinh
    rcases hplain.alone with hop | hnil | hfault
    · rw [hop] at hinh
      cases hinh.1
    · have hcommits : t.commits = [] := by
        rw [h.snapshots] at hnil
        exact map_eq_nil_iff.1 hnil
      rw [hcommits]
      rfl
    · exact absurd hfault hinh.2
  · rfl

theorem PlainCommit.mem_files {new : ListedCommit} {s : NewSnapshot} (h : Listed site t)
    (hplain : PlainCommit site t s) (hnew : NewCommit site t s new) {g : DataFileEntry}
    (hg : g ∈ new.view.files) : g ∈ new.files := by
  rw [hplain.view_eq h hnew] at hg
  rw [hnew.files]
  exact hg

theorem Bookkept.concat {new : ListedCommit} {s : NewSnapshot} (h : Listed site t)
    (hfresh : FreshSnapshot site t.world.objects t.metadata s.snapshotId)
    (hcommits : t'.commits = t.commits ++ [new]) (hnew : NewCommit site t s new)
    (hplain : PlainCommit site t s) (hkept : Bookkept site t) : Bookkept site t' := by
  have hmem : ∀ d ∈ t'.commits, d ∈ t.commits ∨ d = new := by
    intro d hd
    rw [hcommits] at hd
    simpa using hd
  have hentry : ∀ r ∈ new.list, r.manifestPath = site.path (.manifest s.snapshotId) ∨
      r.manifestPath = site.path (.deleteManifest s.snapshotId) ∧ s.equalityDeleteFiles ≠ [] := by
    intro r hr
    have hown := (hnew.record hr).2.2.2
    rw [hplain.takenOver_eq h,nil_append] at hown
    exact NewCommit.mem_ownManifests hown
  have hunused : ∀ d ∈ t.commits, d.snapshot.snapshotId ≠ s.snapshotId := by
    intro d hd heq
    refine hfresh.unused ?_
    rw [h.snapshots,map_map]
    exact mem_map.2 ⟨d,hd,heq⟩
  refine ⟨fun d hd r hr e he => ?_, fun d hd r hr hpath => ?_, fun d hd r hr hpath => ?_, ?_⟩
  · rcases hmem d hd with hd | rfl
    · rw [hcommits,find?_concat hd (names_of_mem hr)] at he
      exact hkept.added d hd r hr e he
    · -- no earlier commit lists a manifest of this one
      have hnone : t.commits.find? (·.names r.manifestPath) = none := by
        refine find?_eq_none.2 fun e he hnames => ?_
        rw [ListedCommit.names,contains_iff_mem] at hnames
        obtain ⟨r',hr',hsame⟩ := mem_map.1 hnames
        obtain ⟨e',he',hknown⟩ := h.known e he r' hr'
        rw [hsame] at hknown
        rcases hentry r hr with hown | ⟨hown,-⟩ <;> rw [hown] at hknown <;>
          simp only [Place.path_inj,MetaPath.manifest.injEq,MetaPath.deleteManifest.injEq,
            reduceCtorEq,or_false,false_or] at hknown <;>
          exact hunused e' he' hknown.symm
      rw [hcommits,find?_append,hnone,Option.none_or,find?_singleton] at he
      rw [if_pos (names_of_mem hr)] at he
      cases he
      exact ⟨(hnew.record hr).1, (hnew.record hr).2.1⟩
  · rcases hmem d hd with hd | rfl
    · exact hkept.dataRows d hd r hr hpath
    · rw [hnew.files,addedRows_committedEntries]
      rcases hplain.rows with hdel | hzero
      · -- the data manifest is the only one, hence the last one
        have hentries := hnew.entries
        rw [hplain.takenOver_eq h,nil_append,ownManifests,hdel] at hentries
        obtain ⟨r',hlist',-⟩ := map_eq_singleton_iff.1 hentries
        rw [hlist',mem_singleton] at hr
        subst hr
        obtain ⟨lengths,-,hlist⟩ := hnew.list
        rw [hlist] at hlist'
        exact addedRowsCount_getLast (congrArg getLast? hlist')
      · rw [hzero]
        rcases (hnew.record hr).2.2.1 with hrows | hrows
        · rw [hrows,hzero]
        · exact hrows
  · rcases hmem d hd with hd | rfl
    · exact hkept.deleteRows d hd r hr hpath
    · rcases hplain.rows with hdel | hzero
      · rcases hentry r hr with hown | ⟨-,hne⟩
        · rw [hnew.snapshotId,hown,Place.path_inj] at hpath
          cases hpath
        · exact absurd hdel hne
      · rcases (hnew.record hr).2.2.1 with hrows | hrows
        · rw [hrows,hzero]
        · exact hrows
  · intro before d after heq happ f hf e he g hg hpath
    rw [hcommits] at heq
    rcases eq_nil_or_concat after with rfl | ⟨after,last,rfl⟩
    · obtain ⟨-,hd⟩ := append_inj' heq rfl
      obtain rfl := (List.cons.inj hd).1
      obtain rfl := mem_singleton.1 he
      rw [(hnew.file (hplain.mem_files h hnew hg)).1,(hnew.file hf).1]
    · rw [concat_eq_append,← cons_append,← append_assoc] at heq
      obtain ⟨hcommits',hlast⟩ := append_inj' heq rfl
      obtain rfl := (List.cons.inj hlast).1
      rw [concat_eq_append,← cons_append] at he
      rcases mem_append.1 he with he | he
      · exact hkept.lasting before d after hcommits' happ f hf e he g hg hpath
      · obtain rfl := mem_singleton.1 he
        obtain ⟨-,g',hg',hpath'⟩ := hnew.file (hplain.mem_files h hnew hg)
        have hd : d ∈ t.commits := by
          rw [hcommits']
          simp
        exact absurd (hpath'.symm.trans hpath) (hplain.paths d hd happ f hf g' hg')

theorem listed_of_stored (hst : Stored site t.world.objects t.metadata []) (hnil : t.commits = []) :
    Listed site t := by
  have hsnap : t.metadata.snapshots = [] := by simpa using hst.views
  constructor
  · rw [hnil]
    exact hst
  · rw [hsnap,hnil]
    rfl
  all_goals
    rw [hnil]
    intro c hc
    cases hc

theorem Listed.exists_step (h : Listed site t) {w' : Store} {id : SnapshotId}
    (hfresh : FreshSnapshot site t.world.objects t.metadata c.1.snapshotId)
    (hrun : (commitSnapshot site c.1 c.2).run t.world = (.ok id, w')) :
    ∃ t', ListStep site t c t' ∧ t'.world = w' := by
  obtain ⟨stats,pstats,-,hst,-⟩ := run_commitSnapshot_ok h.stored hfresh hrun
  obtain ⟨before,hbefore,hbuilt⟩ := run_commitSnapshot_built h.stored hfresh hrun
  let entries := takenOver t c.1 ++ ownManifests site c.1
  let lengths : List Int := entries.map fun _ => 0
  let new : ListedCommit := {
    snapshot := icebergSnapshot site t.metadata c.1 c.2
    list := writeManifestListMultiTyped (entries.zip lengths) c.1.snapshotId
      (t.metadata.lastSequenceNumber + 1) (addedRows c.1.files)
    files := committedEntries site t.metadata c.1.files
    view := committedView site t.metadata (t.commits.map (·.view)) c.1 (t.world.faults 5) }
  refine ⟨⟨w', t.metadata.applyCommit (commitArtifacts site t.metadata c.1 c.2 stats pstats),
    t.commits ++ [new]⟩, ⟨hfresh,⟨id,hrun⟩,?_,?_,new,entries,lengths,rfl,?_,?_,rfl,?_⟩,
    rfl⟩
  · rw [map_append]
    exact hst
  · rw [IcebergMetadata.snapshots_applyCommit,map_append,h.snapshots]
    rfl
  · have hlist := hbuilt.manifestList
    rw [h.inheritedList_eq hfresh hbefore] at hlist
    exact hlist
  · exact length_map _
  · rw [manifestFiles,Place.locate_path,hbuilt.manifest]
    exact congrArg some (readManifestFile_writeManifestFile _ _ _)

/-- Along every chain of commits of a new table, the lists of all snapshots are kept well exactly
when every commit was plain. -/
theorem manifestLists_bookkept_iff {t₀ : ListedTable} {commits : List (NewSnapshot × Int)}
    (hst : Stored site t₀.world.objects t₀.metadata []) (hnil : t₀.commits = [])
    (h : History (ListStep site) t₀ commits t) :
    Bookkept site t ↔ History (PlainStep site) t₀ commits t := by
  have hlisted {labels : List (NewSnapshot × Int)} {u : ListedTable}
      (hu : History (ListStep site) t₀ labels u) : Listed site u :=
    hu.invariant (Listed site) (fun _ _ _ hl hs => hl.step hs) (listed_of_stored hst hnil)
  constructor
  · intro hkept
    induction h with
    | start => exact .start
    | @step labels t u c hhist hstep ih =>
      obtain ⟨new,hcommits,hnew,-⟩ := hstep.newCommit (hlisted hhist)
      have hplain := PlainCommit.of_bookkept (hlisted hhist) hcommits hnew hkept
      exact .step (ih (hkept.of_concat hcommits)) ⟨hstep,hplain⟩
  · intro hplain
    clear h
    induction hplain with
    | start =>
      refine ⟨?_, ?_, ?_, fun before c after heq => ?_⟩
      iterate 3
        rw [hnil]
        intro c hc
        cases hc
      rw [hnil] at heq
      simp at heq
    | @step labels t u c hhist hstep ih =>
      have hl := hlisted (hhist.mono fun _ _ _ hs => hs.toListStep)
      obtain ⟨new,hcommits,hnew,-⟩ := hstep.toListStep.newCommit hl
      exact ih.concat hl hstep.fresh hcommits hnew hstep.plain

end Step

def demoListed : ListedTable := ⟨demoTable 2, demoMetadata 2, []⟩

def demoAppendOf (id : SnapshotId) (path : String) : NewSnapshot × Int :=
  (demoAppend id [demoFile path 1], 0)

theorem demoListed_first : ∃ t, ListStep demoSite demoListed (demoAppendOf 1 "data/a.parquet") t ∧
    t.world = (demoCommit 1 "data/a.parquet" (demoTable 2)).2 :=
  (listed_of_stored (stored_demoTable 2) rfl).exists_step ⟨by decide, by decide⟩
    (Prod.ext (by decide : (demoCommit 1 "data/a.parquet" (demoTable 2)).1 = .ok 1) rfl)

theorem manifestLists_bookkept_first :
    ∃ t, History (ListStep demoSite) demoListed [demoAppendOf 1 "data/a.parquet"] t ∧
      Bookkept demoSite t := by
  obtain ⟨t,hstep,-⟩ := demoListed_first
  have hplain : PlainCommit demoSite demoListed (demoAppendOf 1 "data/a.parquet").1 :=
    ⟨.inr (.inl rfl), .inl rfl, fun _ hd => by cases hd⟩
  exact ⟨t, .step .start hstep, (manifestLists_bookkept_iff (stored_demoTable 2) rfl
    (.step .start hstep)).2 (.step .start ⟨hstep,hplain⟩)⟩

/-- After a second append, the list gives the first manifest the numbers of the second commit. -/
theorem manifestLists_restamped :
    ∃ t, History (ListStep demoSite) demoListed
      [demoAppendOf 1 "data/a.parquet", demoAppendOf 2 "data/b.parquet"] t ∧
        ¬Bookkept demoSite t := by
  have h₀ := listed_of_stored (t := demoListed) (stored_demoTable 2) rfl
  obtain ⟨t₁,hstep₁,hworld⟩ := demoListed_first
  obtain ⟨first,hcommits₁,hnew₁,-⟩ := hstep₁.newCommit h₀
  have h₁ := h₀.step hstep₁
  have hids : t₁.metadata.snapshots.map (·.snapshotId) = [1] := by
    rw [h₁.snapshots,hcommits₁,map_map]
    exact congrArg (fun i => [i]) hnew₁.snapshotId
  have hfresh : FreshSnapshot demoSite t₁.world.objects t₁.metadata 2 := by
    refine ⟨by rw [hids]; decide, ?_⟩
    rw [hworld]
    decide
  obtain ⟨t₂,hstep₂,-⟩ := h₁.exists_step (c := demoAppendOf 2 "data/b.parquet") hfresh
    (Prod.ext (by rw [hworld]; decide :
      ((commitSnapshot demoSite (demoAppendOf 2 "data/b.parquet").1 0).run t₁.world).1 = .ok 2) rfl)
  refine ⟨t₂, .step (.step .start hstep₁) hstep₂, fun hkept => ?_⟩
  obtain ⟨second,hcommits₂,hnew₂,-⟩ := hstep₂.newCommit h₁
  rcases (PlainCommit.of_bookkept h₁ hcommits₂ hnew₂ hkept).alone with hop | hnil | hfault
  · cases hop
  · rw [hnil] at hids
    cases hids
  · rw [hworld] at hfault
    exact absurd hfault (by decide)

end AiLake
