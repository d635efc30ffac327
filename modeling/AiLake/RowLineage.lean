import AiLake.TableHistory

/-! Row ids of V3 tables: the ranges of the live files stay apart, as long as a compaction takes
over ids that no other file has. -/
namespace AiLake

open StoreProgram List

def DataFileEntry.rowIds (e : DataFileEntry) : List Int :=
  match e.firstRowId with
  | none => []
  | some first => (List.range e.recordCount).map fun (i : Nat) => first + i

/-- No row id belongs to two of the files, and all of them have been given out. -/
structure RowIdsSound (next : Int) (files : List DataFileEntry) : Prop where
  disjoint : files.Pairwise fun a b => ∀ n ∈ a.rowIds, n ∉ b.rowIds
  below : ∀ e ∈ files, ∀ n ∈ e.rowIds, n < next

instance (next : Int) (files : List DataFileEntry) : Decidable (RowIdsSound next files) :=
  decidable_of_iff ((files.Pairwise fun a b => ∀ n ∈ a.rowIds, n ∉ b.rowIds) ∧
    ∀ e ∈ files, ∀ n ∈ e.rowIds, n < next) ⟨fun h => ⟨h.1, h.2⟩, fun h => ⟨h.1, h.2⟩⟩

section Assign

variable {next : Int} {files : List DataFileEntry}

theorem rowIds_congr {e e' : DataFileEntry} (hf : e'.firstRowId = e.firstRowId)
    (hc : e'.recordCount = e.recordCount) : e'.rowIds = e.rowIds := by
  unfold DataFileEntry.rowIds
  rw [hf,hc]

theorem rowIds_of_none {e : DataFileEntry} (h : e.firstRowId = none) : e.rowIds = [] := by
  unfold DataFileEntry.rowIds
  rw [h]

theorem mem_rowIds {e : DataFileEntry} {first n : Int} (h : e.firstRowId = some first) :
    n ∈ e.rowIds ↔ first ≤ n ∧ n < first + e.recordCount := by
  unfold DataFileEntry.rowIds
  simp only [h,mem_map,mem_range]
  constructor
  · rintro ⟨i,hi,rfl⟩
    omega
  · rintro ⟨hle,hlt⟩
    exact ⟨(n - first).toNat, by omega, by omega⟩

theorem rowIdsSound_map {g : DataFileEntry → DataFileEntry} (hg : ∀ e, (g e).rowIds = e.rowIds) :
    RowIdsSound next (files.map g) ↔ RowIdsSound next files := by
  constructor
  · rintro ⟨hd,hb⟩
    rw [pairwise_map] at hd
    simp only [hg] at hd
    refine ⟨hd, fun e he n hn => hb (g e) (mem_map_of_mem he) n ?_⟩
    rwa [hg]
  · rintro ⟨hd,hb⟩
    refine ⟨?_, fun e' he' n hn => ?_⟩
    · rw [pairwise_map]
      simpa only [hg] using hd
    · obtain ⟨e,he,rfl⟩ := mem_map.1 he'
      rw [hg] at hn
      exact hb e he n hn

/-- What the counter gives out lies at or above it, and above everything that was given out. -/
structure Assigned (next : Int) (files : List DataFileEntry) (r : Int × List DataFileEntry) :
    Prop where
  sound : RowIdsSound r.1 r.2
  le : next ≤ r.1
  source : ∀ e' ∈ r.2, ∀ n ∈ e'.rowIds, next ≤ n ∨ ∃ e ∈ files, n ∈ e.rowIds

theorem assigned_assignRowIds {bound : Int} (h : RowIdsSound bound files) (hb : bound ≤ next) :
    Assigned next files (assignRowIds next files) := by
  induction files generalizing next with
  | nil => exact ⟨⟨List.Pairwise.nil, by simp [assignRowIds]⟩, le_refl _, by simp [assignRowIds]⟩
  | cons f rest ih =>
    have hdisj := pairwise_cons.1 h.disjoint
    have hrest : RowIdsSound bound rest :=
      ⟨hdisj.2, fun e he => h.below e (mem_cons_of_mem _ he)⟩
    have hbelow := h.below f mem_cons_self
    cases hf : f.firstRowId with
    | some first =>
      obtain ⟨hsound,hle,hsource⟩ := ih hrest hb
      simp only [assignRowIds,hf]
      refine ⟨⟨pairwise_cons.2 ⟨fun e' he' => ?_, hsound.disjoint⟩, ?_⟩, hle, ?_⟩
      · intro n hn hn'
        rcases hsource e' he' n hn' with hge | ⟨e,he,hne⟩
        · have hlt := hbelow n hn
          omega
        · exact hdisj.1 e he n hn hne
      · intro e' he' n hn
        rcases mem_cons.1 he' with rfl | he'
        · have hlt := hbelow n hn
          omega
        · exact hsound.below e' he' n hn
      · intro e' he' n hn
        rcases mem_cons.1 he' with rfl | he'
        · exact .inr ⟨e',mem_cons_self,hn⟩
        · rcases hsource e' he' n hn with hge | ⟨e,he,hne⟩
          · exact .inl hge
          · exact .inr ⟨e, mem_cons_of_mem _ he, hne⟩
    | none =>
      obtain ⟨hsound,hle,hsource⟩ := ih hrest (show bound ≤ next + f.recordCount by omega)
      simp only [assignRowIds,hf]
      have hown {n : Int} : n ∈ ({ f with firstRowId := some next } : DataFileEntry).rowIds ↔
          next ≤ n ∧ n < next + f.recordCount := mem_rowIds rfl
      refine ⟨⟨pairwise_cons.2 ⟨fun e' he' => ?_, hsound.disjoint⟩, ?_⟩, by omega, ?_⟩
      · intro n hn hn'
        rw [hown] at hn
        rcases hsource e' he' n hn' with hge | ⟨e,he,hne⟩
        · omega
        · have hlt := hrest.below e he n hne
          omega
      · intro e' he' n hn
        rcases mem_cons.1 he' with rfl | he'
        · rw [hown] at hn
          omega
        · exact hsound.below e' he' n hn
      · intro e' he' n hn
        rcases mem_cons.1 he' with rfl | he'
        · exact .inl (hown.1 hn).1
        · rcases hsource e' he' n hn with hge | ⟨e,he,hne⟩
          · exact .inl (by omega)
          · exact .inr ⟨e, mem_cons_of_mem _ he, hne⟩

theorem rowIdsSound_of_none (h : ∀ e ∈ files, e.firstRowId = none) (bound : Int) :
    RowIdsSound bound files where
  disjoint := List.Pairwise.imp_of_mem (R := fun _ _ => True)
    (fun ha _ _ n hn => by rw [rowIds_of_none (h _ ha)] at hn; cases hn)
    (pairwise_of_forall fun _ _ => trivial)
  below e he n hn := by
    rw [rowIds_of_none (h e he)] at hn
    cases hn

end Assign

section Commit

variable {site : Site} {fmt : FileFormat} {m m' : IcebergMetadata} {views : List View}
  {c : Content} {w w' : Store} {snapshotId : SnapshotId} {nowMs : Int} {s : NewSnapshot}

theorem CommitOf.nextRowId (h : CommitOf site m s nowMs m') (hv : 3 ≤ m.formatVersion) :
    m'.nextRowId = (committedFiles site m s.files).1 := by
  obtain ⟨stats,pstats,rfl⟩ := h
  rw [IcebergMetadata.nextRowId_applyCommit,if_pos hv]
  rfl

theorem assigned_committedEntries (hm' : CommitOf site m s nowMs m') (hv : 3 ≤ m.formatVersion)
    (hs : RowIdsSound m.nextRowId s.files) :
    Assigned m.nextRowId s.files (m'.nextRowId, committedEntries site m s.files) := by
  have habs : RowIdsSound m.nextRowId (s.files.map fun f =>
      { f with path := absoluteDataPath site.warehouse f.path }) := by
    refine (rowIdsSound_map ?_).2 hs
    exact fun _ => rowIds_congr rfl rfl
  have hassigned := assigned_assignRowIds habs le_rfl
  have hcommitted : committedFiles site m s.files = assignRowIds m.nextRowId (s.files.map fun f =>
      { f with path := absoluteDataPath site.warehouse f.path }) := if_pos hv
  rw [hm'.nextRowId hv,committedEntries,hcommitted]
  refine ⟨(rowIdsSound_map ?_).2 hassigned.sound, hassigned.le, ?_⟩
  · exact fun _ => rowIds_congr rfl rfl
  intro e' he' n hn
  obtain ⟨e₁,he₁,rfl⟩ := mem_map.1 he'
  rcases hassigned.source e₁ he₁ n hn with hge | ⟨e₂,he₂,hn₂⟩
  · exact .inl hge
  · obtain ⟨e,he,rfl⟩ := mem_map.1 he₂
    exact .inr ⟨e,he,hn₂⟩

def Content.RowIdsSound (c : Content) (m : IcebergMetadata) : Prop :=
  AiLake.RowIdsSound m.nextRowId (c.files.map (·.entry))

instance (c : Content) (m : IcebergMetadata) : Decidable (c.RowIdsSound m) :=
  inferInstanceAs (Decidable (AiLake.RowIdsSound _ _))

theorem rowIdsSound_append {writer : TableWriter} {writes : List BatchWrite} {new : List LiveFile}
    (hnew : List.Forall₂ (Written writer) writes new) (hv : 3 ≤ m.formatVersion)
    (hm' : CommitOf site m (appendSnapshot writer writes (new.map (·.entry)) snapshotId) nowMs m')
    (hs : c.RowIdsSound m) : Content.RowIdsSound
      ⟨c.files ++ withEntries new (committedEntries site m (new.map (·.entry))), c.deletes⟩ m' := by
  have hnone : ∀ e ∈ new.map (·.entry), e.firstRowId = none := by
    intro e he
    obtain ⟨f,hf,rfl⟩ := mem_map.1 he
    obtain ⟨i,hi,rfl⟩ := getElem_of_mem hf
    have hlen := hnew.length_eq
    have hwritten : Written writer writes[i] new[i] := hnew.get (by omega) hi
    exact hwritten.firstRowId
  obtain ⟨hsound,hle,hsource⟩ :=
    assigned_committedEntries hm' hv (rowIdsSound_of_none hnone _)
  unfold Content.RowIdsSound
  rw [map_append,entry_withEntries (forall₂_committedEntries _)]
  refine ⟨pairwise_append.2 ⟨hs.disjoint,hsound.disjoint,?_⟩, ?_⟩
  · intro e he e' he' n hn hn'
    have hlt := hs.below e he n hn
    rcases hsource e' he' n hn' with hge | ⟨e₀,he₀,hn₀⟩
    · omega
    · rw [rowIds_of_none (hnone e₀ he₀)] at hn₀
      cases hn₀
  · intro e he n hn
    rcases mem_append.1 he with he | he
    · have hlt := hs.below e he n hn
      simp only at hle
      omega
    · exact hsound.below e he n hn

/-- The ids that a merge takes over have been given out, and no file that stays has one of them. -/
def TakesFreeRowIds (m : IcebergMetadata) (c : Content) (mode : CompactionMode)
    (strategy : CompactionIndexStrategy) (fs : List LiveFile) : Prop :=
  ∀ first ∈ takenRowId mode strategy fs, ∀ i ∈ List.range (fs.flatMap (·.kept)).length,
    first + i < m.nextRowId ∧
      ∀ f ∈ c.files, f.entry.path ∉ fs.map (·.entry.path) → first + (i : Int) ∉ f.entry.rowIds

instance (m : IcebergMetadata) (c : Content) (mode : CompactionMode)
    (strategy : CompactionIndexStrategy) (fs : List LiveFile) :
    Decidable (TakesFreeRowIds m c mode strategy fs) :=
  inferInstanceAs (Decidable (∀ first ∈ takenRowId mode strategy fs, ∀ i ∈ List.range _, _ ∧ _))

theorem rowIdsSound_compacted {fs : List LiveFile} {path : String} {mode : CompactionMode}
    {strategy : CompactionIndexStrategy} {entry : DataFileEntry} {file : DataFile}
    (hmerge : MergeOf fs path (takenRowId mode strategy fs) entry file) (hv : 3 ≤ m.formatVersion)
    (hm' : CommitOf site m (replaceSnapshot snapshotId m.currentSnapshotId
      ((c.replaced fs ⟨entry, file, ∅⟩).map (·.entry))) nowMs m')
    (hfree : TakesFreeRowIds m c mode strategy fs) (hs : c.RowIdsSound m) :
    (c.compacted site m fs ⟨entry, file, ∅⟩).RowIdsSound m' := by
  have hcount : entry.recordCount = (fs.flatMap (·.kept)).length := by
    have hlen := hmerge.ids.length_eq
    rw [length_map,length_map] at hlen
    rw [hmerge.recordCount,← hlen]
    rfl
  have hmerged : ∀ n ∈ entry.rowIds, n < m.nextRowId ∧
      ∀ f ∈ c.files, f.entry.path ∉ fs.map (·.entry.path) → n ∉ f.entry.rowIds := by
    intro n hn
    cases hfirst : entry.firstRowId with
    | none =>
      rw [rowIds_of_none hfirst] at hn
      cases hn
    | some first =>
      unfold DataFileEntry.rowIds at hn
      simp only [hfirst] at hn
      obtain ⟨i,hi,rfl⟩ := mem_map.1 hn
      rw [hcount] at hi
      exact hfree first (hmerge.firstRowId ▸ hfirst) i hi
  have hbefore : RowIdsSound m.nextRowId ((c.replaced fs ⟨entry,file,∅⟩).map (·.entry)) := by
    rw [Content.replaced,map_append]
    have hsub : ((c.files.filter fun f => f.entry.path ∉ fs.map (·.entry.path)).map
        (·.entry)).Sublist (c.files.map (·.entry)) := filter_sublist.map _
    refine ⟨pairwise_append.2 ⟨hs.disjoint.sublist hsub, pairwise_singleton _ _, ?_⟩, ?_⟩
    · intro e he e' he' n hn hn'
      obtain ⟨f,hf,rfl⟩ := mem_map.1 he
      obtain ⟨hf,hpath⟩ := mem_filter.1 hf
      have he' : e' = entry := by simpa using he'
      exact (hmerged n (he' ▸ hn')).2 f hf (of_decide_eq_true hpath) hn
    · intro e he n hn
      rcases mem_append.1 he with he | he
      · exact hs.below e (hsub.subset he) n hn
      · have he : e = entry := by simpa using he
        exact (hmerged n (he ▸ hn)).1
  have hassigned := assigned_committedEntries hm' hv hbefore
  unfold Content.RowIdsSound Content.compacted
  rw [entry_withEntries (forall₂_committedEntries _)]
  exact hassigned.sound

end Commit

/-- Appends need nothing; a compaction takes over ids that no other file has. -/
def TableOp.KeepsRowIds (site : Site) (objects : String → Option Object) : TableOp → Prop
  | .append .. => True
  | .compaction mode selection ex .. => ∀ m ∈ currentMetadata site objects,
    ∀ c ∈ currentContent site objects,
      TakesFreeRowIds m c mode ex.strategy (c.selected (selection.pick (c.files.map (·.entry))))
  | _ => False

structure RowIdStep (site : Site) (fmt : FileFormat) (w : Store) (op : TableOp × Int) (w' : Store) :
    Prop where
  run : (op.1.program site fmt op.2).run w = (.ok (), w')
  fresh : op.1.Fresh site w.objects
  free : op.1.KeepsRowIds site w.objects

section Run

variable {site : Site} {fmt : FileFormat} {m : IcebergMetadata} {views : List View} {c : Content}
  {w w' : Store}

def SoundV3 (site : Site) (w : Store) : Prop :=
  ∃ m views c, TableOf site w m views c ∧ 3 ≤ m.formatVersion ∧ c.RowIdsSound m

theorem RowIdStep.soundV3 {op : TableOp × Int} (hstep : RowIdStep site fmt w op w')
    (h : SoundV3 site w) : SoundV3 site w' := by
  obtain ⟨m,views,c,h,hv,hs⟩ := h
  obtain ⟨op,nowMs⟩ := op
  obtain ⟨hrun,hfresh,hfree⟩ := hstep
  cases op with
  | append writer writes id =>
    obtain ⟨_,h₁⟩ := TableOp.run_append_ok hrun
    rcases h.appendBatches (hfresh.1.commit h).toFreshSnapshot hfresh.2.1 hfresh.2.2 h₁ with
      ⟨-,hw⟩ | ⟨new,m',v,hnew,-,hm',h'⟩
    · exact hw ▸ ⟨m,views,c,h,hv,hs⟩
    · exact ⟨m', _, _, h', hm'.formatVersion ▸ hv, rowIdsSound_append hnew hv hm' hs⟩
  | compaction mode selection ex outputPrefix ts id =>
    obtain ⟨_,h₁⟩ := TableOp.run_compaction_ok hrun
    rcases h.compactionRun (hfresh.1.commit h).toFreshSnapshot hfresh.2 h₁ with
      ⟨-,-,hw⟩ | ⟨fs,entry,file,m',v,hfs,hentries,-,-,hmerge,hm',h'⟩
    · exact hw ▸ ⟨m,views,c,h,hv,hs⟩
    · have hfree := hfree m h.stored.currentMetadata c h.currentContent
      rw [← hentries,Content.selected_map h.nodup_paths hfs] at hfree
      exact ⟨m', _, _, h', hm'.formatVersion ▸ hv, rowIdsSound_compacted hmerge hv hm' hfree hs⟩
  | _ => exact hfree.elim

/-- Along every history of V3 appends and compactions, the row ids of the live files stay apart and
below the counter. -/
theorem history_keeps_rowIds {start : Store} {ops : List (TableOp × Int)}
    (h : TableOf site start m views c) (hv : 3 ≤ m.formatVersion) (hs : c.RowIdsSound m)
    (hops : History (RowIdStep site fmt) start ops w) :
    ∃ m' c', currentMetadata site w.objects = some m' ∧ currentContent site w.objects = some c' ∧
      c'.RowIdsSound m' := by
  have hstart : SoundV3 site start := ⟨m,views,c,h,hv,hs⟩
  obtain ⟨m',views',c',h',-,hs'⟩ :=
    hops.invariant (SoundV3 site) (fun w op w' ht hstep => hstep.soundV3 ht) hstart
  exact ⟨m',c',h'.stored.currentMetadata,h'.currentContent,hs'⟩

end Run

def butSecond : FileSelection where
  pick files := files.take 1 ++ files.drop 2
  subperm files := by
    have hsub : (files.drop 2).Sublist (files.drop 1) := by
      rw [← drop_drop (i := 1) (j := 1)]
      exact drop_sublist _ _
    have hle := (hsub.append_left (files.take 1)).subperm
    rwa [take_append_drop] at hle

def demoMerge (mode : CompactionMode) : TableOp :=
  .compaction mode butSecond demoExecutor "data" 1 2

theorem history_keeps_rowIds_merged :
    ∃ m' c', currentMetadata demoSite
        ((demoCompaction .full 1 2).apply (demoRows.apply (demoTable 3))).objects = some m' ∧
      currentContent demoSite
        ((demoCompaction .full 1 2).apply (demoRows.apply (demoTable 3))).objects = some c' ∧
      c'.RowIdsSound m' := by
  have h₁ : RowIdStep demoSite demoFormat (demoTable 3) (demoRows, 0)
      (demoRows.apply (demoTable 3)) := by
    refine ⟨TableOp.run_apply (by decide), ⟨⟨by decide, by decide⟩, ?_, by decide⟩, trivial⟩
    intro p hp
    refine newData_of_ne ?_ ?_ <;> revert p <;> decide
  have h₂ : RowIdStep demoSite demoFormat (demoRows.apply (demoTable 3))
      (demoCompaction .full 1 2, 0) ((demoCompaction .full 1 2).apply
        (demoRows.apply (demoTable 3))) := by
    refine ⟨TableOp.run_apply (by decide), ⟨⟨by decide, by decide⟩, newData_of_ne (by decide)
      (by decide)⟩, ?_⟩
    unfold demoCompaction TableOp.KeepsRowIds
    decide
  exact history_keeps_rowIds (tableOf_demoTable 3) (by decide) ⟨List.Pairwise.nil, by simp⟩
    (.step (.step .start h₁) h₂)

/-- After a merge in this mode the row ids are not what they should be. -/
def MergeTakesRowIds (mode : CompactionMode) : Prop :=
  let w₁ := demoRows.apply (demoTable 3)
  let w₂ := (demoMerge mode).apply w₁
  ((demoRows.program demoSite demoFormat 0).run (demoTable 3)).1 = .ok () ∧
    (((demoMerge mode).program demoSite demoFormat 0).run w₁).1 = .ok () ∧
    (currentMetadata demoSite w₂.objects).isSome ∧
    (currentContent demoSite w₂.objects).isSome ∧
    ∀ m ∈ currentMetadata demoSite w₂.objects, ∀ c ∈ currentContent demoSite w₂.objects,
      ¬c.RowIdsSound m

/-- The merged file gets ids for its rows from the first one of its sources on, and with them those
of the file in between. The incremental merge starts at the third file, and goes past the counter.
-/
theorem compaction_takes_other_rowIds :
    MergeTakesRowIds .full ∧ MergeTakesRowIds .deferred ∧ MergeTakesRowIds .incremental := by
  unfold MergeTakesRowIds
  refine ⟨?_,?_,?_⟩ <;> decide

end AiLake
