import AiLake.RewriteSpec

/-! What the two deletes leave of a table. -/
namespace AiLake

open StoreProgram List Prog

variable {site : Site} {fmt : FileFormat} {m : IcebergMetadata} {views : List View} {c : Content}
  {w w' : Store} {snapshotId : SnapshotId} {nowMs : Int}

section Where

theorem isDigit_of_mem_repr {n : Nat} {ch : Char} (h : ch ∈ n.repr.toList) : ch.isDigit := by
  rw [Nat.toList_repr] at h
  exact Nat.isDigit_of_mem_toDigits (by decide) (by decide) h

theorem colon_not_mem_repr (id : Int) : ':' ∉ id.repr.toList := by
  intro h
  cases id with
  | ofNat n => exact absurd (isDigit_of_mem_repr h) (by decide)
  | negSucc n =>
    simp only [Int.repr,String.toList_append,mem_append] at h
    rcases h with h | h
    · exact absurd h (by decide)
    · exact absurd (isDigit_of_mem_repr h) (by decide)

def committedDelete (site : Site) (m : IcebergMetadata) (d : EqualityDeleteFile) :
    EqualityDeleteFile :=
  { d with
    path := if isAbsolute d.path then d.path else site.root ++ "/" ++ d.path
    inlineValues := none
    sequenceNumber := m.lastSequenceNumber + 1 }

theorem isAbsolute_equalityDelete (snapshotId : SnapshotId) :
    isAbsolute ("metadata/" ++ MetaPath.name (.equalityDelete snapshotId)) = false := by
  have hcolon : ':' ∉ ("metadata/" ++ MetaPath.name (.equalityDelete snapshotId)).toList := by
    simp [MetaPath.name,colon_not_mem_repr]
  have hscheme : ¬"://".toList <:+: ("metadata/" ++ MetaPath.name (.equalityDelete snapshotId)).toList :=
    fun h => hcolon (h.subset (by decide))
  have hslash : ¬"/".toList <+: ("metadata/" ++ MetaPath.name (.equalityDelete snapshotId)).toList := by
    simp [MetaPath.name]
  simp only [isAbsolute,hscheme,hslash,decide_false,Bool.or_self]

theorem path_equalityDeleteFile (column : String) (values : List String) (fieldId : Int)
    (payload : EqualityDeleteAvro) :
    (committedDelete site m
      (equalityDeleteFile fmt column values fieldId payload snapshotId)).path =
      site.path (.equalityDelete snapshotId) := by
  simp only [committedDelete,equalityDeleteFile,isAbsolute_equalityDelete,Bool.false_eq_true,
    if_false,Place.path,MetaPath.render,String.append_assoc]
  rfl

theorem TableOf.commitDelete (h : TableOf site w m views c)
    (hfresh : FreshCommit site w.objects m snapshotId) {column : String} {values : List String}
    {fieldId : Int} {payload : EqualityDeleteAvro} {parent : Option SnapshotId} {id : SnapshotId}
    (hrun : (commitSnapshot site (deleteSnapshot snapshotId parent
        (equalityDeleteFile fmt column values fieldId payload snapshotId)) nowMs).run
      (w.write (site.key (.equalityDelete snapshotId)) (.equalityDelete payload)) = (.ok id, w')) :
    ∃ m' v d, CommitOf site m (deleteSnapshot snapshotId parent
        (equalityDeleteFile fmt column values fieldId payload snapshotId)) nowMs m' ∧
      d.payload = payload ∧ d.entry.sequenceNumber = m.lastSequenceNumber + 1 ∧
      TableOf site w' m' (views ++ [v]) ⟨c.files, c.deletes ++ [d]⟩ := by
  have hw := h.write (k := site.key (.equalityDelete snapshotId)) ⟨by simp, by simp⟩
    hfresh.payload (.equalityDelete payload)
  have hfresh' := hfresh.toFreshSnapshot.update (k := site.key (.equalityDelete snapshotId))
    (by simp [commitPaths]) (some (.equalityDelete payload))
  let d : LiveDelete := ⟨committedDelete site m
    (equalityDeleteFile fmt column values fieldId payload snapshotId), payload⟩
  have hpay : ∀ d' ∈ [d], (w.write (site.key (.equalityDelete snapshotId))
      (.equalityDelete payload)).objects (site.locate d'.entry.path) =
      some (.equalityDelete d'.payload) := by
    intro d' hd'
    rw [mem_singleton.1 hd',path_equalityDeleteFile,site.locate_path,World.write_objects,
      Function.update_self]
  obtain ⟨m',v,hm',htable⟩ := hw.commit hrun hfresh' [] [d] rfl (by simp) rfl hpay
    (by simpa [deleteSnapshot,SnapshotOperation.inherits] using h.holds.apart)
  refine ⟨m',v,d,hm',rfl,rfl,?_⟩
  simpa [Content.committed,deleteSnapshot,SnapshotOperation.inherits,withEntries] using htable

theorem TableOf.deleteWhere (h : TableOf site w m views c)
    (hfresh : FreshCommit site w.objects m snapshotId) {column : String} {values : List String}
    {u : Unit} (hrun : (deleteWhere site fmt column values snapshotId nowMs).run w = (.ok u, w')) :
    (values = [] ∧ w' = w) ∨ ∃ s m' v type d, CommitOf site m s nowMs m' ∧
      s.snapshotId = snapshotId ∧ s.files = [] ∧
      writeEqualityDeleteAvro fmt column type values = .ok d.payload ∧
      d.entry.sequenceNumber = m.lastSequenceNumber + 1 ∧
      TableOf site w' m' (views ++ [v]) ⟨c.files, c.deletes ++ [d]⟩ := by
  unfold AiLake.deleteWhere at hrun
  split at hrun
  · rename_i hempty
    cases hrun
    exact .inl ⟨isEmpty_iff.1 hempty, rfl⟩
  · right
    obtain ⟨table,w₁,h₁,hrest⟩ := run_bind_ok.1 hrun
    rw [h.run_loadTable] at h₁
    cases h₁
    obtain ⟨payload,w₂,h₂,hrest⟩ := run_bind_ok.1 hrest
    rw [run_ofExcept] at h₂
    obtain ⟨hpayload,rfl⟩ := Prod.mk.inj h₂
    obtain ⟨_,w₃,h₃,hrest⟩ := run_bind_ok.1 hrest
    rw [h.render_location,run_putObject_reliable h.reliable,site.locate_path] at h₃
    obtain ⟨-,rfl⟩ := Prod.mk.inj h₃
    obtain ⟨id,w₄,h₄,hrest⟩ := run_bind_ok.1 hrest
    cases hrest
    obtain ⟨m',v,d,hm',rfl,hseq,htable⟩ := h.commitDelete hfresh h₄
    exact ⟨_,m',v,_,d,hm',rfl,rfl,hpayload,hseq,htable⟩

end Where

section Rows

variable {rowIds : List UInt32} {target : Nat}

def hideRows (files : List LiveFile) (target : Nat) (rowIds : List UInt32) (dv : DeletionVector) :
    List LiveFile :=
  files.modify target fun f =>
    ⟨{ f.entry with deletionVector := some dv }, f.file, insertRows f.bitmap rowIds⟩

theorem entry_hideRows (files : List LiveFile) (target : Nat) (rowIds : List UInt32)
    (dv : DeletionVector) : (hideRows files target rowIds dv).map (·.entry) =
      (files.map (·.entry)).modify target fun e => { e with deletionVector := some dv } := by
  induction files generalizing target with
  | nil => cases target <;> rfl
  | cons f rest ih =>
    cases target with
    | zero => rfl
    | succ n => simpa [hideRows] using ih n

theorem mem_insertRows {bitmap : Bitmap} {i : Nat} :
    i ∈ insertRows bitmap rowIds ↔ i ∈ bitmap ∨ ∃ id ∈ rowIds, id.toNat = i := by
  induction rowIds generalizing bitmap with
  | nil => simp [insertRows]
  | cons id rest ih =>
    have hstep : insertRows bitmap (id :: rest) = insertRows (insert id.toNat bitmap) rest := rfl
    rw [hstep,ih,Finset.mem_insert]
    simp only [mem_cons,exists_eq_or_imp]
    rw [eq_comm,or_comm (a := id.toNat = i),or_assoc]

theorem run_existingBitmap (hr : w.Reliable) {f : LiveFile} (hf : f.Stored site w.objects) :
    (existingBitmap site f.entry.deletionVector).run w = (.ok f.bitmap, w) := by
  have hv := hf.vector
  cases hdv : f.entry.deletionVector with
  | none =>
    rw [hdv] at hv
    rw [← Option.some.inj hv]
    rfl
  | some dv =>
    have hload := run_loadDeletionVector hr (hdv ▸ hv)
    simp only [existingBitmap,run_bind,run_attempt,hload,run_pure]

theorem mem_hideRows {files : List LiveFile} {dv : DeletionVector} {f' : LiveFile}
    (h : f' ∈ hideRows files target rowIds dv) : f' ∈ files ∨ ∃ f, files[target]? = some f ∧
      f' = ⟨{ f.entry with deletionVector := some dv }, f.file, insertRows f.bitmap rowIds⟩ := by
  unfold hideRows at h
  rw [modify_eq_take_drop] at h
  rcases mem_append.1 h with h | h
  · exact .inl (mem_of_mem_take h)
  · cases hd : files.drop target with
    | nil => simp [hd] at h
    | cons f rest =>
      rw [hd,modifyHead_cons] at h
      rcases mem_cons.1 h with rfl | h
      · refine .inr ⟨f,?_,rfl⟩
        rw [← head?_drop,hd,head?_cons]
      · exact .inl (mem_of_mem_drop (hd ▸ mem_cons_of_mem _ h))

theorem locate_hideRows (files : List LiveFile) (target : Nat) (rowIds : List UInt32)
    (dv : DeletionVector) : ((hideRows files target rowIds dv).map fun f => site.locate f.entry.path) =
      files.map fun f => site.locate f.entry.path := by
  induction files generalizing target with
  | nil => cases target <;> rfl
  | cons f rest ih =>
    cases target with
    | zero => rfl
    | succ n => simpa [hideRows] using ih n

theorem exists_of_findTarget {filePath : String} {files : List LiveFile}
    (h : findTarget filePath (files.map (·.entry)) = some target) :
    ∃ f, files[target]? = some f ∧ (files.map (·.entry))[target]? = some f.entry := by
  have hlt : target < (files.map (·.entry)).length := by
    obtain ⟨hlt,-⟩ := findIdx?_eq_some_iff_getElem.1 h
    exact hlt
  rw [length_map] at hlt
  exact ⟨files[target], getElem?_eq_getElem hlt, by simp [hlt]⟩

theorem TableOf.commitRows (h : TableOf site w m views c)
    (hfresh : FreshCommit site w.objects m snapshotId) {f : LiveFile}
    (hf : c.files[target]? = some f) {dv : DeletionVector}
    (hdv : dv.path = site.path (.deletionVector snapshotId)) {parent : Option SnapshotId}
    {id : SnapshotId} (hrun : (commitSnapshot site (replaceSnapshot snapshotId parent
        ((hideRows c.files target rowIds dv).map (·.entry))) nowMs).run
      (w.write (site.key (.deletionVector snapshotId))
        (.puffin [⟨dv.offset, dv.length, insertRows f.bitmap rowIds⟩])) = (.ok id, w')) :
    ∃ m' v, CommitOf site m (replaceSnapshot snapshotId parent
        ((hideRows c.files target rowIds dv).map (·.entry))) nowMs m' ∧
      TableOf site w' m' (views ++ [v]) ⟨withEntries (hideRows c.files target rowIds dv)
        (committedEntries site m ((hideRows c.files target rowIds dv).map (·.entry))), []⟩ := by
  have hw := h.write (k := site.key (.deletionVector snapshotId)) ⟨by simp, by simp⟩
    hfresh.vector (.puffin [⟨dv.offset, dv.length, insertRows f.bitmap rowIds⟩])
  have hfresh' := hfresh.toFreshSnapshot.update (k := site.key (.deletionVector snapshotId))
    (by simp [commitPaths]) (some (.puffin [⟨dv.offset, dv.length, insertRows f.bitmap rowIds⟩]))
  refine hw.replace hrun hfresh' (fun f' hf' => ?_) ?_
  · rcases mem_hideRows hf' with hold | ⟨f₀,hf₀,rfl⟩
    · exact hw.holds.live f' hold
    · rw [hf] at hf₀
      cases hf₀
      refine ⟨(hw.holds.live f (mem_of_getElem? hf)).data, ?_⟩
      simp [bitmapOf,hdv]
  · rw [locate_hideRows]
    exact h.holds.apart

/-- `delete_rows` grows one deletion vector; what it commits brings no equality delete along. -/
theorem TableOf.deleteRows (h : TableOf site w m views c)
    (hfresh : FreshCommit site w.objects m snapshotId) {filePath : String} {u : Unit}
    (hrun : (deleteRows site fmt filePath rowIds snapshotId nowMs).run w = (.ok u, w')) :
    (rowIds = [] ∧ w' = w) ∨ ∃ target dv m' v,
      findTarget filePath (c.files.map (·.entry)) = some target ∧
      CommitOf site m (replaceSnapshot snapshotId m.currentSnapshotId
        ((hideRows c.files target rowIds dv).map (·.entry))) nowMs m' ∧
      TableOf site w' m' (views ++ [v]) ⟨withEntries (hideRows c.files target rowIds dv)
        (committedEntries site m ((hideRows c.files target rowIds dv).map (·.entry))), []⟩ := by
  unfold AiLake.deleteRows at hrun
  split at hrun
  · rename_i hempty
    cases hrun
    exact .inl ⟨isEmpty_iff.1 hempty, rfl⟩
  · right
    obtain ⟨table,w₁,h₁,hrest⟩ := run_bind_ok.1 hrun
    rw [h.run_loadTable] at h₁
    cases h₁
    split at hrest
    · cases hrest
    · obtain ⟨files,w₂,h₂,hrest⟩ := run_bind_ok.1 hrest
      rw [h.run_listFiles] at h₂
      cases h₂
      split at hrest
      · cases hrest
      · rename_i target htarget
        obtain ⟨f,hf,hentry⟩ := exists_of_findTarget htarget
        have hstored := h.holds.live f (mem_of_getElem? hf)
        obtain ⟨existing,w₃,h₃,hrest⟩ := run_bind_ok.1 hrest
        rw [hentry,Option.bind_some,run_existingBitmap h.reliable hstored] at h₃
        cases h₃
        obtain ⟨_,w₄,h₄,hrest⟩ := run_bind_ok.1 hrest
        have hpath : (deletionVectorFor fmt m.toTableMetadata snapshotId
            (insertRows f.bitmap rowIds)).path = site.path (.deletionVector snapshotId) :=
          h.render_location _
        rw [run_putObject_reliable h.reliable,hpath,site.locate_path] at h₄
        cases h₄
        obtain ⟨id,w₅,h₅,hrest⟩ := run_bind_ok.1 hrest
        cases hrest
        rw [← entry_hideRows c.files target rowIds] at h₅
        obtain ⟨m',v,hm',htable⟩ := h.commitRows hfresh hf hpath h₅
        exact ⟨target,_,m',v,htarget,hm',htable⟩

end Rows
end AiLake
