import AiLake.PartitionValue
import AiLake.TableHistory

/-! What a search that is filtered to one partition sees, before and after a compaction. -/
namespace AiLake

open StoreProgram List

/-- The rows that a search with this partition filter can see: files of other partitions, and files
without a partition value, are pruned. -/
def Content.inPartition (tx : TextForms) (c : Content) (value : String) : List Row :=
  (c.files.filter fun f => f.entry.partitionValue = some value).flatMap (c.visibleIn tx)

/-- Each filter sees the same rows, and the merged file has the partition value of its sources. -/
structure KeepsPartitions (site : Site) (tx : TextForms) (c c' : Content) (fs : List LiveFile)
    (output : String) : Prop where
  rows : ∀ value, ((c'.inPartition tx value).map (·.id)).Perm ((c.inPartition tx value).map (·.id))
  merged : ∀ f ∈ fs, ∀ g ∈ c'.files, site.locate g.entry.path = site.locate output →
    g.entry.partitionValue = f.entry.partitionValue

/-- No selected file has a partition value; every other one that has it, and rows, keeps it in a
manifest and loses no row to an equality delete. -/
structure UnpartitionedMerge (tx : TextForms) (m : IcebergMetadata) (c : Content)
    (fs : List LiveFile) : Prop where
  sources : ∀ f ∈ fs, f.entry.partitionValue = none
  others : ∀ f ∈ c.files, f.entry.path ∉ fs.map (·.entry.path) →
    f.entry.partitionValue ≠ none → f.kept ≠ [] →
    storedPartitionValue m.partitionSpec f.entry.partitionValue = f.entry.partitionValue ∧
      ∀ r ∈ f.kept, c.masks tx f r = false

/-- No two stored rows have the same identity. -/
def Content.IdsDistinct (c : Content) : Prop :=
  (c.files.flatMap fun f => f.file.batch.rows.map (·.id)).Nodup

section Ids

variable {tx : TextForms} {c : Content}

theorem Content.IdsDistinct.eq (h : c.IdsDistinct) {f g : LiveFile} (hf : f ∈ c.files)
    (hg : g ∈ c.files) {r r' : Row} (hr : r ∈ f.file.batch.rows) (hr' : r' ∈ g.file.batch.rows)
    (hid : r.id = r'.id) : f = g ∧ r = r' := by
  obtain ⟨heach,hpair⟩ := nodup_flatMap.1 h
  have hfg : f = g := by
    by_contra hne
    have hsymm : Std.Symm (Function.onFun List.Disjoint fun f : LiveFile =>
        f.file.batch.rows.map (·.id)) := ⟨fun _ _ hxy => hxy.symm⟩
    have hdisj := hpair.forall hf hg hne
    exact hdisj (mem_map_of_mem hr) (hid ▸ mem_map_of_mem hr')
  subst hfg
  exact ⟨rfl, inj_on_of_nodup_map (heach f hf) hr hr' hid⟩

theorem mem_inPartition {value : String} {r : Row} : r ∈ c.inPartition tx value ↔
    ∃ f ∈ c.files, f.entry.partitionValue = some value ∧ r ∈ c.visibleIn tx f := by
  simp [Content.inPartition,and_assoc]

theorem mem_visibleIn {f : LiveFile} {r : Row} :
    r ∈ c.visibleIn tx f ↔ r ∈ f.kept ∧ c.masks tx f r = false := by
  simp [Content.visibleIn]

end Ids

section Compacted

variable {site : Site} {tx : TextForms} {m : IcebergMetadata} {views : List View} {c : Content}
  {w : Store} {fs : List LiveFile} {output : String} {firstRowId : Option Int}
  {entry : DataFileEntry} {file : DataFile}

theorem flatMap_filter_eq {α β : Type} (p : α → Bool) (g : α → List β) (l : List α) :
    (l.filter p).flatMap g = l.flatMap fun a => if p a then g a else [] := by
  induction l with
  | nil => rfl
  | cons a rest ih =>
    rw [flatMap_cons,← ih]
    cases h : p a <;> simp [h]

/-- After a compaction a filter sees what the deletion vectors left of the unmerged files, under the
partition values that a manifest gives back. -/
theorem inPartition_compacted (hmerge : MergeOf fs output firstRowId entry file) (value : String) :
    (c.compacted site m fs ⟨entry, file, ∅⟩).inPartition tx value =
      c.files.flatMap fun f => if f.entry.path ∉ fs.map (·.entry.path) ∧
        storedPartitionValue m.partitionSpec f.entry.partitionValue = some value then f.kept
        else [] := by
  have hshown : (c.compacted site m fs ⟨entry,file,∅⟩).inPartition tx value =
      (c.replaced fs ⟨entry,file,∅⟩).flatMap fun f =>
        if storedPartitionValue m.partitionSpec f.entry.partitionValue = some value then f.kept
        else [] := by
    rw [Content.inPartition,flatMap_filter_eq,flatMap_def,flatMap_def]
    refine congrArg List.flatten (map_withEntries _ _ (fun f f' hR hfile hbitmap => ?_)
      (forall₂_committedEntries _))
    have hkept : f'.kept = f.kept := by
      unfold LiveFile.kept
      rw [hfile,hbitmap]
    simp only [hR.partitionValue,decide_eq_true_eq]
    rw [← hkept]
    congr 1
    exact filter_eq_self.2 fun r _ => by rw [Content.masks_of_no_deletes rfl]; rfl
  rw [hshown,Content.replaced,flatMap_append,flatMap_filter_eq]
  simp only [flatMap_singleton,hmerge.partitionValue,storedPartitionValue_none,
    reduceCtorEq,if_false,append_nil]
  refine flatMap_congr fun f _ => ?_
  by_cases hp : f.entry.path ∈ fs.map (·.entry.path) <;> simp [hp]

theorem mem_inPartition_compacted (hmerge : MergeOf fs output firstRowId entry file)
    {value : String} {r : Row} :
    r ∈ (c.compacted site m fs ⟨entry, file, ∅⟩).inPartition tx value ↔
      ∃ f ∈ c.files, f.entry.path ∉ fs.map (·.entry.path) ∧
        storedPartitionValue m.partitionSpec f.entry.partitionValue = some value ∧ r ∈ f.kept := by
  rw [inPartition_compacted hmerge,mem_flatMap]
  refine exists_congr fun f => and_congr_right fun _ => ?_
  split
  · rename_i hf
    simp [hf]
  · rename_i hf
    simp only [not_mem_nil,false_iff]
    exact fun hr => hf ⟨hr.1,hr.2.1⟩

theorem sources_of_keepsPartitions (hmerge : MergeOf fs output firstRowId entry file)
    (hk : KeepsPartitions site tx c (c.compacted site m fs ⟨entry, file, ∅⟩) fs output) :
    ∀ f ∈ fs, f.entry.partitionValue = none := by
  intro f hf
  have hmem : (⟨entry,file,∅⟩ : LiveFile) ∈ c.replaced fs ⟨entry,file,∅⟩ :=
    mem_append_right _ (mem_singleton_self _)
  obtain ⟨g,hg,hR,-,-⟩ := exists_withEntries_of_mem (R := Committed site m)
    (forall₂_committedEntries _) hmem
  rw [← hk.merged f hf g hg (by rw [hR.locate,hmerge.entryPath]),hR.partitionValue,
    hmerge.partitionValue,storedPartitionValue_none]

theorem keepsPartitions_compacted_iff (h : TableOf site w m views c) (hids : c.IdsDistinct)
    (hfs : List.Subperm fs c.files) (hnew : NewData site w.objects output)
    (hmerge : MergeOf fs output firstRowId entry file) :
    KeepsPartitions site tx c (c.compacted site m fs ⟨entry, file, ∅⟩) fs output ↔
      UnpartitionedMerge tx m c fs := by
  constructor
  · intro hk
    refine ⟨sources_of_keepsPartitions hmerge hk, fun f hf hpath hvalue hrows => ?_⟩
    obtain ⟨value,hv⟩ := Option.ne_none_iff_exists'.1 hvalue
    obtain ⟨value',hv'⟩ := storedPartitionValue_some m.partitionSpec value
    -- A row that is left is shown under the stored value, so it was shown under it before.
    have hshown : ∀ r ∈ f.kept, value' = value ∧ c.masks tx f r = false := by
      intro r hr
      have hafter : r.id ∈ ((c.compacted site m fs ⟨entry,file,∅⟩).inPartition tx value').map
          (·.id) := mem_map_of_mem
        ((mem_inPartition_compacted hmerge).2 ⟨f, hf, hpath, hv ▸ hv', hr⟩)
      obtain ⟨r',hr',hid⟩ := mem_map.1 ((hk.rows value').mem_iff.1 hafter)
      obtain ⟨g,hg,hgv,hr'⟩ := mem_inPartition.1 hr'
      obtain ⟨hkept,hmask⟩ := mem_visibleIn.1 hr'
      obtain ⟨rfl,rfl⟩ := hids.eq hf hg (mem_rows_of_mem_kept hr) (mem_rows_of_mem_kept hkept)
        hid.symm
      rw [hv] at hgv
      exact ⟨(Option.some.inj hgv).symm, hmask⟩
    obtain ⟨r,hr⟩ := exists_mem_of_ne_nil _ hrows
    refine ⟨?_, fun r hr => (hshown r hr).2⟩
    rw [hv,hv',(hshown r hr).1]
  · rintro ⟨hsources,hothers⟩
    refine ⟨fun value => .of_eq (congrArg _ ?_), fun f hf g hg hlocate => ?_⟩
    · rw [inPartition_compacted hmerge,Content.inPartition,flatMap_filter_eq]
      refine flatMap_congr fun f hf => ?_
      by_cases hpath : f.entry.path ∈ fs.map (·.entry.path)
      · obtain ⟨g,hg,hgf⟩ := mem_map.1 hpath
        have hsame := inj_on_of_nodup_map h.nodup_paths (hfs.subset hg) hf hgf
        simp [hpath,hsources f (hsame ▸ hg)]
      · cases hv : f.entry.partitionValue with
        | none => simp [hpath,storedPartitionValue_none]
        | some value' =>
          by_cases hrows : f.kept = []
          · simp [hrows,Content.visibleIn]
          · obtain ⟨hstored,hmask⟩ := hothers f hf hpath (by simp [hv]) hrows
            have hvisible : c.visibleIn tx f = f.kept :=
              filter_eq_self.2 fun r hr => by rw [hmask r hr]; rfl
            rw [hv] at hstored
            simp [hpath,hstored,hvisible]
    · obtain ⟨g₀,hg₀,hR,-,-⟩ := exists_of_mem_withEntries (forall₂_committedEntries _) hg
      rcases mem_replaced hg₀ with ⟨hg₀,-⟩ | rfl
      · have hdata := (h.holds.live g₀ hg₀).data
        rw [← hR.locate,hlocate,hnew.absent] at hdata
        cases hdata
      · rw [hR.partitionValue,hmerge.partitionValue,storedPartitionValue_none,hsources f hf]

end Compacted

def demoInsertInto (value : String) (id : Nat) (snapshotId : SnapshotId) : TableOp :=
  .append ⟨{ demoPolicy with partitionValue := some value }, none, value, none⟩
    [demoBatch id value] snapshotId

/-- A compaction in this mode takes a row out of its partition. -/
def EmptiesPartition (mode : CompactionMode) : Prop :=
  let insertA := demoInsertInto "A" 7 1
  let insertB := demoInsertInto "B" 8 2
  let compaction := demoCompaction mode 1 3
  let w₁ := insertA.apply (demoTable 2)
  let w₂ := insertB.apply w₁
  let w₃ := compaction.apply w₂
  ((insertA.program demoSite demoFormat 0).run (demoTable 2)).1 = .ok () ∧
    ((insertB.program demoSite demoFormat 0).run w₁).1 = .ok () ∧
    ((compaction.program demoSite demoFormat 0).run w₂).1 = .ok () ∧
    (currentContent demoSite w₂.objects).map
      (fun c => (c.inPartition demoForms "A").map (·.id)) = some [7] ∧
    (currentContent demoSite w₃.objects).map
      (fun c => (c.inPartition demoForms "A").map (·.id)) = some []

end AiLake
