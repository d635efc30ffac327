import AiLake.RewriteSpec

/-! What an append leaves of a table, and what the index job does to the file it patches. -/
namespace AiLake

open StoreProgram List Prog

variable {site : Site} {fmt : FileFormat} {m : IcebergMetadata} {views : List View} {c : Content}
  {w w' : Store} {snapshotId : SnapshotId} {nowMs : Int}

section Append

variable {writer : TableWriter}

structure Written (writer : TableWriter) (b : BatchWrite) (f : LiveFile) : Prop where
  batch : f.file.batch = b.batch
  recordCount : f.entry.recordCount = b.batch.numRows
  bitmap : f.bitmap = ∅
  deletionVector : f.entry.deletionVector = none
  firstRowId : f.entry.firstRowId = none
  partitionValue : f.entry.partitionValue = writer.policy.partitionValue

theorem length_of_writeDataFile {policy : VectorStoragePolicy} {batch : RecordBatch}
    {embeddings : List (List F32)} {index : Option VectorIndex} {fts : Bool} {file : DataFile}
    (h : writeDataFile policy batch embeddings index fts = .ok file) :
    embeddings.length = batch.numRows := by
  unfold writeDataFile at h
  split at h
  · cases h
  · rename_i hlen
    exact not_not.1 hlen

theorem written_of_dataFile {b : BatchWrite} {file : DataFile} (path : String)
    (h : writer.dataFile fmt b = .ok file) :
    Written writer b ⟨writer.entry fmt b path file, file, ∅⟩ := by
  have hfile : file.batch = b.batch ∧ b.embeddings.length = b.batch.numRows := by
    unfold TableWriter.dataFile at h
    split at h <;> exact ⟨batch_of_writeDataFile h, length_of_writeDataFile h⟩
  refine ⟨hfile.1,?_,rfl,?_,?_,rfl⟩
  · unfold TableWriter.entry
    cases b.deferred <;> exact hfile.2
  · unfold TableWriter.entry
    cases b.deferred <;> rfl
  · unfold TableWriter.entry
    cases b.deferred <;> rfl

theorem path_entry (b : BatchWrite) (path : String) (file : DataFile) :
    (writer.entry fmt b path file).path = path := by
  unfold TableWriter.entry
  cases b.deferred <;> rfl

theorem run_writeBatch_ok (hr : w.Reliable) {b : BatchWrite} {path : String}
    {entry : DataFileEntry} (h : (writeBatch site fmt writer b path).run w = (.ok entry, w')) :
    ∃ file, w' = w.write (site.locate path) (.dataFile file) ∧ entry.path = path ∧
      Written writer b ⟨entry, file, ∅⟩ := by
  obtain ⟨_,w₁,h₁,hrest⟩ := run_bind_ok.1 h
  rw [run_ofExcept] at h₁
  obtain ⟨-,rfl⟩ := Prod.mk.inj h₁
  obtain ⟨file,w₂,h₂,hput⟩ := run_bind_ok.1 hrest
  rw [run_ofExcept] at h₂
  obtain ⟨hfile,rfl⟩ := Prod.mk.inj h₂
  obtain ⟨_,w₃,h₃,hdone⟩ := run_bind_ok.1 hput
  rw [run_putObject_reliable hr] at h₃
  cases h₃
  cases hdone
  exact ⟨file, rfl, path_entry b path file, written_of_dataFile path hfile⟩

def TableWriter.partPaths (writer : TableWriter) (n : Nat) : List BatchWrite → List String
  | [] => []
  | _ :: rest => writer.partPath n :: writer.partPaths (n + 1) rest

/-- New data files under the given names; everything else is as it was. -/
structure WritesFiles (site : Site) (w w' : Store) (paths : List String) (new : List LiveFile) :
    Prop where
  named : new.map (·.entry.path) = paths
  live : ∀ f ∈ new, f.Stored site w'.objects
  frame : ∀ k ∉ paths.map site.locate, w'.objects k = w.objects k

theorem TableOf.writeBatches (h : TableOf site w m views c) {n : Nat} {writes : List BatchWrite}
    {entries : List DataFileEntry} (hnew : ∀ p ∈ writer.partPaths n writes, NewData site w.objects p)
    (hapart : ((writer.partPaths n writes).map site.locate).Nodup)
    (hrun : (writeBatches site fmt writer n writes).run w = (.ok entries, w')) :
    ∃ new, entries = new.map (·.entry) ∧ List.Forall₂ (Written writer) writes new ∧
      WritesFiles site w w' (writer.partPaths n writes) new ∧ TableOf site w' m views c := by
  induction writes generalizing n w entries w' with
  | nil =>
    cases hrun
    exact ⟨[], rfl, .nil, ⟨rfl, by simp, fun _ _ => rfl⟩, h⟩
  | cons b rest ih =>
    obtain ⟨entry,w₁,h₁,hrest⟩ := run_bind_ok.1 hrun
    obtain ⟨file,rfl,hpath,hwritten⟩ := run_writeBatch_ok h.reliable h₁
    obtain ⟨entries',w₂,h₂,hdone⟩ := run_bind_ok.1 hrest
    cases hdone
    have hfirst := hnew (writer.partPath n) mem_cons_self
    rw [TableWriter.partPaths,map_cons,nodup_cons] at hapart
    have hw := h.writeData hfirst (.dataFile file)
    have hnew' : ∀ p ∈ writer.partPaths (n + 1) rest,
        NewData site (w.write (site.locate (writer.partPath n)) (.dataFile file)).objects p := by
      intro p hp
      have hp' := hnew p (mem_cons_of_mem _ hp)
      have hne : site.locate p ≠ site.locate (writer.partPath n) := fun he =>
        hapart.1 (he ▸ mem_map_of_mem hp)
      exact ⟨by rw [World.write_objects,Function.update_of_ne hne,hp'.absent], hp'.data⟩
    obtain ⟨new,rfl,hnews,hfiles,htable⟩ := ih hw hnew' hapart.2 h₂
    refine ⟨⟨entry,file,∅⟩ :: new, rfl, .cons hwritten hnews, ⟨?_,?_,?_⟩, htable⟩
    · rw [map_cons,hfiles.named,hpath]
      rfl
    · intro f hf
      rcases mem_cons.1 hf with rfl | hf
      · refine ⟨?_,?_⟩
        · rw [hpath,hfiles.frame _ hapart.1]
          simp
        · rw [hwritten.deletionVector]
          rfl
      · exact hfiles.live f hf
    · intro k hk
      rw [TableWriter.partPaths,map_cons,mem_cons,not_or] at hk
      rw [hfiles.frame k hk.2,World.write_objects,Function.update_of_ne hk.1]

/-- An append without a write commits nothing; otherwise the files come after the previous ones and
every equality delete stays. -/
theorem TableOf.appendBatches (h : TableOf site w m views c)
    (hfresh : FreshSnapshot site w.objects m snapshotId) {writes : List BatchWrite}
    (hnew : ∀ p ∈ writer.partPaths 0 writes, NewData site w.objects p)
    (hapart : ((writer.partPaths 0 writes).map site.locate).Nodup) {id : SnapshotId}
    (hrun : (appendBatches site fmt writer writes snapshotId nowMs).run w = (.ok id, w')) :
    (writes = [] ∧ w' = w) ∨ ∃ new m' v, List.Forall₂ (Written writer) writes new ∧ new ≠ [] ∧
      CommitOf site m (appendSnapshot writer writes (new.map (·.entry)) snapshotId) nowMs m' ∧
      TableOf site w' m' (views ++ [v])
        ⟨c.files ++ withEntries new (committedEntries site m (new.map (·.entry))), c.deletes⟩ := by
  obtain ⟨entries,w₁,h₁,hrest⟩ := run_bind_ok.1 hrun
  obtain ⟨new,rfl,hwritten,hfiles,hw⟩ := h.writeBatches hnew hapart h₁
  split at hrest
  · rename_i hempty
    have hnil : new = [] := by simpa using hempty
    subst hnil
    cases hwritten
    obtain ⟨current,w₂,h₂,hdone⟩ := run_bind_ok.1 hrest
    rw [hw.run_currentSnapshotOrNone] at h₂
    cases h₂
    cases hdone
    cases h₁
    exact .inl ⟨rfl,rfl⟩
  · rename_i hne
    right
    have hfresh' : FreshSnapshot site w₁.objects m snapshotId := by
      refine ⟨hfresh.unused, fun p hp => ?_⟩
      rw [hfiles.frame,hfresh.absent p hp]
      intro hk
      obtain ⟨q,hq,hqp⟩ := mem_map.1 hk
      exact (hnew q hq).data p hqp
    have hkeys : (new.map fun f => site.locate f.entry.path) =
        (writer.partPaths 0 writes).map site.locate := by
      rw [← hfiles.named,map_map]
      rfl
    have hapart' : ((c.files ++ new).map fun f => site.locate f.entry.path).Nodup := by
      rw [map_append,nodup_append,hkeys]
      refine ⟨h.holds.apart,hapart,?_⟩
      rintro k hk k' hk' rfl
      obtain ⟨f,hf,hfk⟩ := mem_map.1 hk
      obtain ⟨q,hq,hqk⟩ := mem_map.1 hk'
      have hdata := (h.holds.live f hf).data
      rw [hfk,← hqk,(hnew q hq).absent] at hdata
      cases hdata
    obtain ⟨m',v,hm',htable⟩ := hw.commit hrest hfresh' new [] rfl hfiles.live rfl (by simp)
      (by simpa [appendSnapshot,SnapshotOperation.inherits] using hapart')
    refine ⟨new, m', v, hwritten, by simpa using hne, hm', ?_⟩
    simpa [Content.committed,appendSnapshot,SnapshotOperation.inherits] using htable

end Append

section IndexJob

/-- The same rows with the same positions hidden, under whatever entry. -/
def LiveFile.SameRows (f f' : LiveFile) : Prop :=
  f'.file.batch = f.file.batch ∧ f'.bitmap = f.bitmap

theorem LiveFile.SameRows.kept {f f' : LiveFile} (h : f.SameRows f') : f'.kept = f.kept := by
  unfold LiveFile.kept
  rw [h.1,h.2]

theorem LiveFile.SameRows.trans {f g k : LiveFile} (h : f.SameRows g) (h' : g.SameRows k) :
    f.SameRows k := ⟨h'.1.trans h.1, h'.2.trans h.2⟩

theorem sameRows_refl (files : List LiveFile) : List.Forall₂ LiveFile.SameRows files files :=
  forall₂_same.2 fun _ _ => ⟨rfl,rfl⟩

theorem sameRows_trans {fs gs ks : List LiveFile} (h : List.Forall₂ LiveFile.SameRows fs gs)
    (h' : List.Forall₂ LiveFile.SameRows gs ks) : List.Forall₂ LiveFile.SameRows fs ks := by
  induction h generalizing ks with
  | nil => exact h'
  | cons hd _ ih =>
    cases h' with
    | cons hd' htl' => exact .cons (hd.trans hd') (ih htl')

theorem sameRows_withEntries {R : DataFileEntry → DataFileEntry → Prop} {files : List LiveFile}
    {entries : List DataFileEntry} (h : List.Forall₂ R (files.map (·.entry)) entries) :
    List.Forall₂ LiveFile.SameRows files (withEntries files entries) :=
  (forall₂_withEntries h).imp fun _ _ hf => ⟨congrArg _ hf.2.1, hf.2.2⟩

theorem TableOf.replaceEntries (h : TableOf site w m views c) {entries : List DataFileEntry}
    (hR : List.Forall₂ (fun e e' : DataFileEntry =>
      e'.path = e.path ∧ e'.deletionVector = e.deletionVector) (c.files.map (·.entry)) entries)
    {parent : Option SnapshotId} {id : SnapshotId}
    (hrun : (commitSnapshot site (replaceSnapshot snapshotId parent entries) nowMs).run w =
      (.ok id, w')) (hfresh : FreshSnapshot site w.objects m snapshotId) :
    ∃ m' v c', CommitOf site m (replaceSnapshot snapshotId parent entries) nowMs m' ∧
      TableOf site w' m' (views ++ [v]) c' ∧ c'.deletes = [] ∧
      List.Forall₂ LiveFile.SameRows c.files c'.files := by
  have hentry := entry_withEntries hR
  rw [← hentry] at hrun ⊢
  have hlive : ∀ f ∈ withEntries c.files entries, f.Stored site w.objects := by
    intro f' hf'
    obtain ⟨f,hf,⟨hpath,hdv⟩,hfile,hbitmap⟩ := exists_of_mem_withEntries hR hf'
    have hs := h.holds.live f hf
    exact ⟨by rw [hpath,hfile,hs.data], by rw [hdv,hbitmap,hs.vector]⟩
  have hkeys : (withEntries c.files entries).map (fun f => site.locate f.entry.path) =
      c.files.map fun f => site.locate f.entry.path :=
    map_withEntries _ _ (fun f f' hf _ _ => congrArg site.locate hf.1) hR
  obtain ⟨m',v,hm',htable⟩ := h.replace hrun hfresh hlive (hkeys ▸ h.holds.apart)
  exact ⟨m', v, _, hm', htable, rfl, sameRows_trans (sameRows_withEntries hR)
    (sameRows_withEntries (forall₂_committedEntries _))⟩

theorem forall₂_patchFirst {R : DataFileEntry → DataFileEntry → Prop} (hrefl : ∀ e, R e e)
    {change : DataFileEntry → DataFileEntry} (hchange : ∀ e, R e (change e)) (filePath : String)
    (files : List DataFileEntry) : List.Forall₂ R files (patchFirst filePath change files) := by
  induction files with
  | nil => exact .nil
  | cons f rest ih =>
    unfold patchFirst
    split
    · exact .cons (hchange f) (forall₂_same.2 fun e _ => hrefl e)
    · exact .cons (hrefl f) ih

theorem TableOf.run_waitForCommit (h : TableOf site w m views c) {n : Nat} {found : Bool}
    (hrun : (waitForCommit site n).run w = (.ok found, w')) : w' = w := by
  induction n with
  | zero =>
    cases hrun
    rfl
  | succ n ih =>
    obtain ⟨current,w₁,h₁,hrest⟩ := run_bind_ok.1 hrun
    rw [h.run_currentSnapshotOrNone] at h₁
    cases h₁
    cases hc : m.currentSnapshotId with
    | none =>
      rw [hc] at hrest
      exact ih hrest
    | some id =>
      rw [hc] at hrest
      cases hrest
      rfl

theorem TableOf.patchCatalog (h : TableOf site w m views c) {filePath : String} {file : DataFile}
    {attempts : List SnapshotId} (hdistinct : attempts.Nodup)
    (hfresh : ∀ id ∈ attempts, FreshSnapshot site w.objects m id) {u : Unit}
    (hrun : (patchCatalog site fmt filePath file nowMs attempts).run w = (.ok u, w')) :
    ∃ m' views' c', TableOf site w' m' views' c' ∧
      List.Forall₂ LiveFile.SameRows c.files c'.files := by
  induction attempts generalizing w m views c with
  | nil =>
    cases hrun
    exact ⟨m, views, c, h, sameRows_refl _⟩
  | cons snapshotId rest ih =>
    rw [nodup_cons] at hdistinct
    obtain ⟨table,w₁,h₁,hrest⟩ := run_bind_ok.1 hrun
    rw [h.run_loadTable] at h₁
    cases h₁
    obtain ⟨files,w₂,h₂,hrest⟩ := run_bind_ok.1 hrest
    rw [h.run_listFiles] at h₂
    cases h₂
    split at hrest
    · cases hrest
      exact ⟨m, views, c, h, sameRows_refl _⟩
    · obtain ⟨id,w₃,h₃,hrest⟩ := run_bind_ok.1 hrest
      have hfirst := hfresh snapshotId mem_cons_self
      obtain ⟨m₁,v,c₁,hm₁,htable,-,hsame⟩ := h.replaceEntries
        (forall₂_patchFirst (fun _ => ⟨rfl,rfl⟩) (fun _ => ⟨rfl,rfl⟩) _ _) h₃ hfirst
      obtain ⟨verify,w₄,h₄,hrest⟩ := run_bind_ok.1 hrest
      rw [htable.run_listFiles] at h₄
      cases h₄
      split at hrest
      · cases hrest
        exact ⟨m₁,_,c₁,htable,hsame⟩
      · have hfresh' : ∀ id ∈ rest, FreshSnapshot site w₃.objects m₁ id := fun id hid =>
          h.fresh_commit h₃ hfirst hm₁ (hfresh id (mem_cons_of_mem _ hid))
            (fun he => hdistinct.1 ((show id = snapshotId from he) ▸ hid))
        obtain ⟨m',views',c',htable',hsame'⟩ := ih htable hdistinct.2 hfresh' hrest
        exact ⟨m', views', c', htable', sameRows_trans hsame hsame'⟩

theorem sameRows_overwritten (h : TableOf site w m views c) {k : String} {old file : DataFile}
    (hk : w.objects k = some (.dataFile old)) (hbatch : file.batch = old.batch) :
    List.Forall₂ LiveFile.SameRows c.files (c.overwritten site k file).files := by
  rw [Content.overwritten,forall₂_map_right_iff,forall₂_same]
  intro f hf
  split
  · rename_i hfk
    have hdata := (h.holds.live f hf).data
    rw [hfk,hk,Option.some.injEq,Object.dataFile.injEq] at hdata
    exact ⟨hbatch.trans (congrArg _ hdata), rfl⟩
  · exact ⟨rfl,rfl⟩

theorem TableOf.buildAndPatchIndex (h : TableOf site w m views c) {policy : VectorStoragePolicy}
    {filePath : String} {attempts : List SnapshotId} (hdistinct : attempts.Nodup)
    (hfresh : ∀ id ∈ attempts, FreshSnapshot site w.objects m id) {u : Unit}
    (hrun : (buildAndPatchIndex site fmt policy filePath attempts nowMs).run w = (.ok u, w')) :
    ∃ m' views' c', TableOf site w' m' views' c' ∧
      List.Forall₂ LiveFile.SameRows c.files c'.files := by
  obtain ⟨stored,w₁,h₁,hrest⟩ := run_bind_ok.1 hrun
  obtain ⟨hstored,rfl⟩ := run_getDataFile_ok h.reliable h₁
  obtain ⟨pair,w₂,h₂,hrest⟩ := run_bind_ok.1 hrest
  rw [run_ofExcept] at h₂
  obtain ⟨hpair,rfl⟩ := Prod.mk.inj h₂
  obtain ⟨file,w₃,h₃,hput⟩ := run_bind_ok.1 hrest
  rw [run_ofExcept] at h₃
  obtain ⟨hfile,rfl⟩ := Prod.mk.inj h₃
  obtain ⟨_,w₄,h₄,hput⟩ := run_bind_ok.1 hput
  rw [run_ofExcept] at h₄
  obtain ⟨-,rfl⟩ := Prod.mk.inj h₄
  obtain ⟨_,w₅,h₅,hwait⟩ := run_bind_ok.1 hput
  rw [run_putObject_reliable h.reliable] at h₅
  cases h₅
  have hbatch : file.batch = stored.batch := by
    rw [batch_of_writeDataFile hfile,eq_of_readParquet hpair]
  have hw := h.overwrite hstored file
  have hsame := sameRows_overwritten h hstored hbatch
  have hfresh' : ∀ id ∈ attempts, FreshSnapshot site
      (w₁.write (site.locate filePath) (.dataFile file)).objects m id := by
    intro id hid
    refine (hfresh id hid).update (fun p hp he => ?_) _
    rw [he,(hfresh id hid).absent p hp] at hstored
    cases hstored
  obtain ⟨found,w₆,h₆,hpatch⟩ := run_bind_ok.1 hwait
  have hw₆ := hw.run_waitForCommit h₆
  subst hw₆
  split at hpatch
  · obtain ⟨m',views',c',htable,hsame'⟩ := hw.patchCatalog hdistinct hfresh' hpatch
    exact ⟨m', views', c', htable, sameRows_trans hsame hsame'⟩
  · cases hpatch

theorem TableOf.patchIndexFailed (h : TableOf site w m views c) {filePath reason : String}
    (hfresh : FreshSnapshot site w.objects m snapshotId) {u : Unit}
    (hrun : (patchIndexFailed site filePath reason snapshotId nowMs).run w = (.ok u, w')) :
    ∃ m' views' c', TableOf site w' m' views' c' ∧
      List.Forall₂ LiveFile.SameRows c.files c'.files := by
  simp only [AiLake.patchIndexFailed,run_bind,run_attempt,h.run_loadTable,
    h.run_listFiles] at hrun
  obtain ⟨-,rfl⟩ := Prod.mk.inj hrun
  rcases run_commitSnapshot_reliable h.reliable h.stored (replaceSnapshot snapshotId
    m.toTableMetadata.currentSnapshotId (patchFirst filePath (markFailed reason)
      (c.files.map (·.entry)))) nowMs with ⟨-,id,w₁,hok⟩ | ⟨-,e,herr⟩
  · obtain ⟨m',v,c',-,htable,-,hsame⟩ := h.replaceEntries
      (forall₂_patchFirst (fun _ => ⟨rfl,rfl⟩) (fun _ => ⟨rfl,rfl⟩) _ _) hok hfresh
    rw [hok]
    exact ⟨m',_,c',htable,hsame⟩
  · rw [herr]
    exact ⟨m, views, c, h.setMutex false, sameRows_refl _⟩

end IndexJob
end AiLake
