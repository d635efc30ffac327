import AiLake.Listing
import AiLake.PointerCatalogSpec
import AiLake.TableNames

/-! Two tables of one catalog. A table's objects lie under its root and are found from its pointer;
two names with one root, and in Glue two tables of one name, are one table. -/
namespace AiLake

open StoreProgram Function

variable {place : Place}

/-! The calls. -/

inductive TableCall where
  | create (props : TableProperties)
  | commit (s : NewSnapshot)
  | evolve (e : SchemaEvolution)
  | list (snapshotId : Option SnapshotId)

def TableCall.hadoop (place : Place) (nowMs : Int) : TableCall → Program Unit
  | .create props => createTable place (props.metadata place.root nowMs)
  | .commit s => do
    let _ ← commitSnapshot place s nowMs
    pure ()
  | .evolve e => do
    let _ ← evolveSchema place e nowMs
    pure ()
  | .list snapshotId => do
    let _ ← listFiles place snapshotId
    pure ()

section Hadoop

variable {nowMs : Int} {w : Store}

abbrev ownFootprint (place : Place) : Footprint String Object :=
  tableFootprint place (namesOf place) (namesOf place)

theorem within_currentVersion :
    (currentVersion place).Within (ownFootprint place) (namesOf place)
      fun _ S => S = namesOf place := by
  refine (Prog.within_get (key_mem_namesOf _)).bind fun r S _ hr => ?_
  split <;> exact Prog.within_pure hr.1

theorem within_loadRawMetadata :
    (loadRawMetadata place).Within (ownFootprint place) (namesOf place)
      fun m S => S = namesOf place ∧ objectRefs place (.metadata m) ⊆ namesOf place := by
  refine within_currentVersion.bind fun version S _ hS => ?_
  subst hS
  refine (within_getObject (key_mem_namesOf _)).bind fun o S _ ho => ?_
  split
  · exact Prog.within_pure ho
  · exact Prog.within_fail _

theorem within_saveMetadata {S : Set String} {m : IcebergMetadata} (hS : namesOf place ⊆ S)
    (hm : objectRefs place (.metadata m) ⊆ S) :
    (saveMetadata place m).Within (ownFootprint place) S fun _ _ => True := by
  have hversion : (currentVersion place).Within (ownFootprint place) S fun _ S' => S' = S := by
    refine (Prog.within_get (hS (key_mem_namesOf _))).bind fun r S' _ hr => ?_
    split <;> exact Prog.within_pure hr.1
  refine hversion.bind fun version S₁ hS₁ _ => ?_
  refine (within_putObject (key_mem_namesOf _) (hm.trans hS₁)).bind fun _ S₂ _ _ => ?_
  exact (within_putObject (key_mem_namesOf _) (Set.empty_subset _)).mono fun _ _ _ _ => trivial

theorem within_commitBody {s : NewSnapshot} :
    (commitBody place s nowMs).Within (ownFootprint place) (namesOf place) fun _ _ => True := by
  refine within_loadRawMetadata.bind fun m S hS hm => ?_
  refine (within_buildCommit (hm.1 ▸ hm.2) fun p _ => key_mem_namesOf p).bind fun a S' hS' ha => ?_
  refine (within_saveMetadata (hS.trans hS') ha).bind fun _ _ _ _ => Prog.within_pure trivial

theorem within_commitSnapshot {s : NewSnapshot} :
    (commitSnapshot place s nowMs).Within (ownFootprint place) (namesOf place) fun _ _ => True := by
  refine ⟨trivial, fun _ _ => ⟨key_mem_namesOf _, fun held _ => ?_⟩⟩
  match held with
  | none => exact Prog.within_leave.bind fun _ _ _ _ => Prog.within_fail _
  | some false => exact Prog.within_leave.bind fun _ _ _ _ => Prog.within_fail _
  | some true =>
    refine within_commitBody.attempt.bind fun result _ _ _ => ?_
    refine (Prog.within_unlock (key_mem_namesOf _)).bind fun released _ _ _ => ?_
    refine Prog.within_leave.bind fun _ _ _ _ => ?_
    cases result with
    | error e => exact Prog.within_fail _
    | ok id => cases released <;> trivial

theorem within_evolveSchema {e : SchemaEvolution} :
    (evolveSchema place e nowMs).Within (ownFootprint place) (namesOf place) fun _ _ => True := by
  refine within_loadRawMetadata.bind fun m S hS hm => ?_
  cases hevolved : m.evolved e nowMs with
  | none => exact Prog.within_fail _
  | some m' =>
    obtain ⟨current,-,rfl⟩ := Option.map_eq_some_iff.1 hevolved
    exact (within_saveMetadata hS (hm.1 ▸ hm.2)).bind fun _ _ _ _ => Prog.within_pure trivial

theorem within_createTable (props : TableProperties) (nowMs : Int) :
    (createTable place (props.metadata place.root nowMs)).Within (ownFootprint place)
      (namesOf place) fun _ _ => True := by
  refine within_currentVersion.bind fun version S hS _ => ?_
  split
  · exact Prog.within_fail _
  · refine within_saveMetadata hS ?_
    rintro k ⟨snap,hsnap,-⟩
    cases hsnap

theorem within_loadTable :
    (loadTable place).Within (ownFootprint place) (namesOf place) fun _ _ => True :=
  within_loadRawMetadata.bind fun _ _ _ _ => Prog.within_pure trivial

theorem within_listFiles (id : Option SnapshotId) :
    (listFiles place id).Within (ownFootprint place) (namesOf place) fun _ _ => True :=
  within_loadRawMetadata.bind fun _ _ _ hm => within_listFilesFromMetadata (hm.1 ▸ hm.2)

theorem TableCall.within_hadoop (call : TableCall) (nowMs : Int) :
    (call.hadoop place nowMs).Within (ownFootprint place) (namesOf place) fun _ _ => True := by
  cases call with
  | create props => exact within_createTable props nowMs
  | commit s => exact within_commitSnapshot.bind fun _ _ _ _ => Prog.within_pure trivial
  | evolve e => exact within_evolveSchema.bind fun _ _ _ _ => Prog.within_pure trivial
  | list id => exact (within_listFiles id).bind fun _ _ _ _ => Prog.within_pure trivial

/-- What a table shows does not differ between two stores. -/
structure HadoopUnchanged (place : Place) (w w' : Store) : Prop where
  load : ((loadTable place).run w'.reliably).1 = ((loadTable place).run w.reliably).1
  list : ∀ id, ((listFiles place id).run w'.reliably).1 = ((listFiles place id).run w.reliably).1

/-- The objects of a table refer to objects of the table. -/
abbrev SelfContained (place : Place) (w : Store) : Prop :=
  (ownFootprint place).Closed (namesOf place) w.objects

theorem SelfContained.unchanged {w' : Store} (h : SelfContained place w)
    (hagree : ∀ k ∈ namesOf place, w'.objects k = w.objects k) : HadoopUnchanged place w w' where
  load := within_loadTable.run_congr
    (readOnly_loadRawMetadata.bind fun _ => Prog.readOnly_pure _) h rfl hagree
  list id := (within_listFiles id).run_congr
    (readOnly_loadRawMetadata.bind fun m => readOnly_listFilesFromMetadata m id) h rfl hagree

variable (warehouse : String) (locate : String → String) (tables : Bool → TableIdent)

/-- A call on one of two tables, at any time and with any of its store calls failing. -/
def HadoopStep (w : Store) (label : Bool × TableCall) (w' : Store) : Prop :=
  ∃ nowMs faults, w' = ((label.2.hadoop (hadoopPlace warehouse locate (tables label.1)) nowMs).run
    { w with faults := faults }).2

/-- Along every sequence of calls, those on one table leave what the other one shows. -/
def HadoopApart : Prop :=
  ∀ labels w, History (HadoopStep warehouse locate tables) emptyStore labels w →
    ∀ side call w', HadoopStep warehouse locate tables w (side, call) w' →
      HadoopUnchanged (hadoopPlace warehouse locate (tables !side)) w w'

variable {warehouse locate tables}

theorem HadoopStep.keeps {w' : Store} {label : Bool × TableCall}
    (h : HadoopStep warehouse locate tables w label w')
    (hself : SelfContained (hadoopPlace warehouse locate (tables label.1)) w) :
    SelfContained (hadoopPlace warehouse locate (tables label.1)) w' ∧
      ∀ k ∉ namesOf (hadoopPlace warehouse locate (tables label.1)), w'.objects k = w.objects k := by
  obtain ⟨nowMs,faults,rfl⟩ := h
  obtain ⟨hoff,S,hS,hsub,hclosed,-⟩ :=
    (label.2.within_hadoop nowMs).run (w := { w with faults := faults }) hself
  have heq : S = namesOf (hadoopPlace warehouse locate (tables label.1)) :=
    Set.Subset.antisymm (hsub.trans (Set.union_self _).subset) hS
  rw [heq] at hclosed
  exact ⟨hclosed,hoff⟩

theorem hadoopApart_of_root (hlocate : KeepsApart locate)
    (hroot : (hadoopPlace warehouse locate (tables false)).root ≠
      (hadoopPlace warehouse locate (tables true)).root) :
    HadoopApart warehouse locate tables := by
  have hdisjoint (side : Bool) : Disjoint (namesOf (hadoopPlace warehouse locate (tables side)))
      (namesOf (hadoopPlace warehouse locate (tables !side))) := by
    refine namesOf_disjoint hlocate rfl ?_
    cases side with
    | false => exact hroot
    | true => exact hroot.symm
  have hother {w w' : Store} {side : Bool} {call : TableCall}
      (hself : ∀ side, SelfContained (hadoopPlace warehouse locate (tables side)) w)
      (hstep : HadoopStep warehouse locate tables w (side, call) w') :
      ∀ k ∈ namesOf (hadoopPlace warehouse locate (tables !side)), w'.objects k = w.objects k :=
    fun k hk => (hstep.keeps (hself side)).2 k (Set.disjoint_right.1 (hdisjoint side) hk)
  intro labels w hw side call w' hstep
  have hself : ∀ side, SelfContained (hadoopPlace warehouse locate (tables side)) w := by
    refine hw.invariant (fun w => ∀ side, SelfContained (hadoopPlace warehouse locate (tables side)) w)
      ?_ fun side k _ v hv => nomatch hv
    rintro w ⟨side,call⟩ w' hself hstep other
    rcases Bool.eq_or_eq_not other side with rfl | rfl
    · exact (hstep.keeps (hself other)).1
    · exact (hself !side).congr (hother hself hstep)
  exact (hself !side).unchanged (hother hself hstep)

def plainTable : TableProperties := ⟨2, none, none, [], []⟩

theorem objects_createTable (place : Place) (m : IcebergMetadata) :
    ((createTable place m).run emptyStore).2.objects =
      update (update (fun _ => none) (place.key (.metadataJson 1))
        (some (.metadata m))) (place.key .versionHint) (some (.versionHint (some 1))) := rfl

theorem run_loadTable_of_version {m : IcebergMetadata}
    (hhint : w.objects (place.key .versionHint) = some (.versionHint (some 1)))
    (hjson : w.objects (place.key (.metadataJson 1)) = some (.metadata m)) :
    ((loadTable place).run w.reliably).1 = .ok m.toTableMetadata := by
  simp only [loadTable,loadRawMetadata,currentVersion,getObject,Prog.run_bind,Prog.run_get,
    World.reliably_faults,World.reliably_objects,World.tick_faults,World.tick_objects,
    Bool.false_eq_true,if_false,hhint,Prog.run_pure,Option.getD_some,Place.locate_path,hjson]

/-- A creation shows under every name with the same root. -/
theorem not_hadoopApart (hlocate : KeepsApart locate)
    (hroot : (hadoopPlace warehouse locate (tables false)).root =
      (hadoopPlace warehouse locate (tables true)).root) :
    ¬HadoopApart warehouse locate tables := by
  intro hapart
  obtain ⟨a,ha⟩ : ∃ a, a = hadoopPlace warehouse locate (tables false) := ⟨_,rfl⟩
  obtain ⟨b,hb⟩ : ∃ b, b = hadoopPlace warehouse locate (tables true) := ⟨_,rfl⟩
  obtain ⟨m,hm⟩ : ∃ m, m = plainTable.metadata a.root 0 := ⟨_,rfl⟩
  have hkey (p : MetaPath) : b.key p = a.key p := by
    rw [ha,hb]
    change locate (p.render _) = locate (p.render _)
    rw [hroot]
  have hne : a.key (.metadataJson 1) ≠ a.key .versionHint := by
    rw [ha,Ne,key_inj_of_keepsApart hlocate]
    exact nofun
  have hstep : HadoopStep warehouse locate tables emptyStore (false, .create plainTable)
      ((createTable a m).run emptyStore).2 := ⟨0, fun _ => false, by rw [hm,ha]; rfl⟩
  have hload : ((loadTable b).run ((createTable a m).run emptyStore).2.reliably).1 =
      .ok m.toTableMetadata := by
    refine run_loadTable_of_version ?_ ?_
    · rw [objects_createTable,hkey,update_self]
    · rw [objects_createTable,hkey,update_of_ne hne,update_self]
  have hsame := (hapart [] emptyStore .start false (.create plainTable) _ hstep).load
  rw [Bool.not_false,← hb,hload] at hsame
  have hbefore : ((loadTable b).run emptyStore.reliably).1 = .error .store := rfl
  rw [hbefore] at hsame
  cases hsame

end Hadoop

section Pointer

variable {Key Guard α : Type} [DecidableEq Key] [DecidableEq Guard] {c : PointerCatalog Key Guard}

open PointerCatalog

variable {w w' : PointerWorld Key Guard} {row : String × Guard} {m : IcebergMetadata} {e : Draw}

def TableCall.pointer (c : PointerCatalog Key Guard) (place : Place) :
    TableCall → PointerScript Key Guard Unit
  | .create props => c.createTable place props
  | .commit s => do
    let _ ← c.commitSnapshot place s
    pure ()
  | .evolve e => do
    let _ ← c.evolveSchema place e
    pure ()
  | .list snapshotId => do
    let _ ← c.listFiles place snapshotId
    pure ()

omit [DecidableEq Key] [DecidableEq Guard] in
theorem TableCall.keeps_pointer (call : TableCall) :
    c.Keeps place (fun _ => none) (namesOf place) (namesOf place) (call.pointer c place) fun _ _ => True := by
  cases call with
  | create props => exact keeps_createTable props
  | commit s =>
    exact (keeps_swapLoop (changes_commit fun p _ => key_mem_namesOf p) _).bind
      fun _ _ _ _ => keeps_pure trivial
  | evolve e =>
    exact (keeps_swapLoop (changes_evolve e) _).bind fun _ _ _ _ => keeps_pure trivial
  | list id => exact (keeps_listFiles id).bind fun _ _ _ _ => keeps_pure trivial

/-- The row of a table leads into its directory, and the objects there to each other. -/
structure PointerSelf (c : PointerCatalog Key Guard) (place : Place) (w : PointerWorld Key Guard) :
    Prop where
  closed : SelfContained place w.store
  row : ∀ row, w.rows (c.key place) = some row → place.locate row.1 ∈ namesOf place

/-- The rows of other tables and the objects of other directories are the same. -/
structure PointerFrame (c : PointerCatalog Key Guard) (place : Place)
    (w w' : PointerWorld Key Guard) : Prop where
  rows : ∀ key ≠ c.key place, w'.rows key = w.rows key
  objects : ∀ k ∉ namesOf place, w'.store.objects k = w.store.objects k

omit [DecidableEq Key] [DecidableEq Guard] in
theorem PointerFrame.trans {w₁ w₂ w₃ : PointerWorld Key Guard} (h : PointerFrame c place w₁ w₂)
    (h' : PointerFrame c place w₂ w₃) : PointerFrame c place w₁ w₃ where
  rows key hkey := (h'.rows key hkey).trans (h.rows key hkey)
  objects k hk := (h'.objects k hk).trans (h.objects k hk)

theorem PointerSelf.perform (h : PointerSelf c place w) (e : Draw) {op : PointerOp Key Guard}
    (hop : (pointerTracking c place (fun _ => none) (namesOf place)).allows (namesOf place) op) :
    (pointerTracking c place (fun _ => none) (namesOf place)).expects (namesOf place) op (c.perform w e op).1 ∧
      (pointerTracking c place (fun _ => none) (namesOf place)).track (namesOf place) op (c.perform w e op).1 =
        namesOf place ∧
      PointerSelf c place (c.perform w e op).2 ∧ PointerFrame c place w (c.perform w e op).2 := by
  have hsame : PointerFrame c place w w := ⟨fun _ _ => rfl, fun _ _ => rfl⟩
  -- A row that is written holds a location of the table.
  have hwritten {location : String} {guard : Guard} (hloc : place.locate location ∈ namesOf place) :
      PointerSelf c place { w with
          rows := update w.rows (c.key place) (some (location, guard)) } ∧
        PointerFrame c place w { w with
          rows := update w.rows (c.key place) (some (location, guard)) } := by
    refine ⟨⟨h.closed, fun row hrow => ?_⟩, ⟨fun key hkey => update_of_ne hkey _ _,
      fun _ _ => rfl⟩⟩
    have hnew : update w.rows (c.key place) (some (location, guard)) (c.key place) =
      some row := hrow
    rw [update_self] at hnew
    cases hnew
    exact hloc
  cases op with
  | store op =>
    obtain ⟨hexpects,hclosed,hoff,hsub⟩ := Footprint.Allows.perform hop h.closed
    have htrack : Footprint.track (namesOf place) op (op.perform w.store).1 = namesOf place :=
      Set.Subset.antisymm (hsub.trans (Set.union_self _).subset) (Footprint.subset_track _ _ _)
    rw [htrack] at hclosed
    exact ⟨hexpects, htrack, ⟨hclosed,h.row⟩, ⟨fun _ _ => rfl, hoff⟩⟩
  | now => exact ⟨trivial,rfl,h,hsame⟩
  | putNew p m =>
    obtain ⟨rfl,hm⟩ := hop
    have hmem : p.locate (metadataPath p e.uuid) ∈ namesOf p := metadataPath_mem_namesOf e
    cases hfault : w.store.faults 0 with
    | true =>
      simp only [PointerCatalog.perform,hfault,if_true]
      exact ⟨trivial, rfl, ⟨h.closed,h.row⟩, ⟨fun _ _ => rfl, fun _ _ => rfl⟩⟩
    | false =>
      simp only [PointerCatalog.perform,hfault,Bool.false_eq_true,if_false]
      have hrefs : (ownFootprint p).refs (.metadata m) ⊆ namesOf p := hm
      have hclosed := h.closed.update (k := p.locate (metadataPath p e.uuid)) hrefs
      rw [Set.insert_eq_of_mem hmem] at hclosed
      refine ⟨trivial, Set.insert_eq_of_mem hmem, ⟨hclosed,h.row⟩, ⟨fun _ _ => rfl, fun k hk => ?_⟩⟩
      exact update_of_ne (ne_of_mem_of_not_mem hmem hk).symm _ _
  | select key =>
    cases hop
    refine ⟨fun row hrow => ⟨h.row row hrow, fun _ hnone => ?_⟩, rfl, h, hsame⟩
    exact absurd hnone (Option.some_ne_none _).symm
  | insert key location =>
    obtain ⟨rfl,hloc⟩ := hop
    cases hrow : w.rows (c.key place) with
    | some row =>
      simp only [PointerCatalog.perform,hrow]
      exact ⟨trivial,rfl,h,hsame⟩
    | none =>
      simp only [PointerCatalog.perform,hrow]
      exact ⟨trivial, rfl, hwritten hloc⟩
  | update key location guard =>
    obtain ⟨rfl,hloc,-⟩ := hop
    cases hrow : w.rows (c.key place) with
    | none =>
      simp only [PointerCatalog.perform,hrow]
      exact ⟨trivial,rfl,h,hsame⟩
    | some row =>
      by_cases hguard : row.2 = guard
      · simp only [PointerCatalog.perform,hrow,hguard,if_true]
        exact ⟨trivial, rfl, hwritten hloc⟩
      · simp only [PointerCatalog.perform,hrow,hguard,if_false]
        exact ⟨trivial,rfl,h,hsame⟩

theorem PointerSelf.reaches {call : TableCall} {q : PointerScript Key Guard Unit}
    (h : PointerSelf c place w)
    (hrun : Script.Reaches c.perform (fun _ _ _ => True) (call.pointer c place) w q w') :
    PointerSelf c place w' ∧ PointerFrame c place w w' := by
  have hstart : namesOf place = namesOf place ∧ PointerSelf c place w ∧ PointerFrame c place w w :=
    ⟨rfl, h, fun _ _ => rfl, fun _ _ => rfl⟩
  obtain ⟨S,⟨-,hself,hframe⟩,-⟩ := Script.Ensures.reaches
    (fun t S => S = namesOf place ∧ PointerSelf c place t ∧ PointerFrame c place w t)
    (fun t S e op => by
      rintro ⟨rfl,hself,hframe⟩ hop -
      obtain ⟨hexpects,htrack,hself',hframe'⟩ := hself.perform e hop
      exact ⟨hexpects, htrack, hself', hframe.trans hframe'⟩)
    call.keeps_pointer hstart hrun
  exact ⟨hself,hframe⟩

theorem PointerSelf.unchanged (hself : PointerSelf c place w)
    (hrow : w'.rows (c.key place) = w.rows (c.key place))
    (hagree : ∀ k ∈ namesOf place, w'.store.objects k = w.store.objects k) :
    PointerUnchanged c place w w' :=
  pointerUnchanged_of_agree (W := ∅) hself.closed hself.row hrow hagree

variable (c) (places : Bool → Place)

/-- A call on one of two tables, with any of its store calls failing. -/
def PointerStep (w : PointerWorld Key Guard) (label : Bool × TableCall)
    (w' : PointerWorld Key Guard) : Prop :=
  ∃ faults q, Script.Reaches c.perform (fun _ _ _ => True) (label.2.pointer c (places label.1))
    { w with store := { w.store with faults := faults } } q w' ∧ q.result.isSome

def emptyCatalog : PointerWorld Key Guard := ⟨emptyStore, fun _ => none⟩

def PointerApart : Prop :=
  ∀ labels w, History (PointerStep c places) emptyCatalog labels w →
    ∀ side call w', PointerStep c places w (side, call) w' →
      PointerUnchanged c (places !side) w w'

variable {c places}

theorem PointerStep.keeps {label : Bool × TableCall} (h : PointerStep c places w label w')
    (hself : PointerSelf c (places label.1) w) :
    PointerSelf c (places label.1) w' ∧ PointerFrame c (places label.1) w w' := by
  obtain ⟨faults,q,hrun,-⟩ := h
  have hself' : PointerSelf c (places label.1) { w with store := { w.store with faults := faults } } :=
    ⟨hself.closed,hself.row⟩
  obtain ⟨hdone,hframe⟩ := hself'.reaches hrun
  exact ⟨hdone,hframe.rows,hframe.objects⟩

theorem pointerApart_of_root (hlocate : KeepsApart (places false).locate)
    (hsame : (places true).locate = (places false).locate)
    (hkey : c.key (places false) ≠ c.key (places true))
    (hroot : (places false).root ≠ (places true).root) : PointerApart c places := by
  have hkey' (side : Bool) : c.key (places !side) ≠ c.key (places side) := by
    cases side with
    | false => exact hkey.symm
    | true => exact hkey
  have hdisjoint (side : Bool) : Disjoint (namesOf (places side)) (namesOf (places !side)) := by
    cases side with
    | false => exact namesOf_disjoint hlocate hsame hroot
    | true => exact namesOf_disjoint (hsame ▸ hlocate) hsame.symm hroot.symm
  have hother {w w' : PointerWorld Key Guard} {side : Bool} {call : TableCall}
      (hself : ∀ side, PointerSelf c (places side) w)
      (hstep : PointerStep c places w (side, call) w') :
      w'.rows (c.key (places !side)) = w.rows (c.key (places !side)) ∧
        ∀ k ∈ namesOf (places !side), w'.store.objects k = w.store.objects k := by
    have hframe := (hstep.keeps (hself side)).2
    exact ⟨hframe.rows _ (hkey' side),
      fun k hk => hframe.objects k (Set.disjoint_right.1 (hdisjoint side) hk)⟩
  intro labels w hw side call w' hstep
  have hself : ∀ side, PointerSelf c (places side) w := by
    refine hw.invariant (fun w => ∀ side, PointerSelf c (places side) w) ?_
      fun side => ⟨fun k _ v hv => (nomatch hv), fun row hrow => (nomatch hrow)⟩
    rintro w ⟨side,call⟩ w' hself hstep other
    rcases Bool.eq_or_eq_not other side with rfl | rfl
    · exact (hstep.keeps (hself other)).1
    · have hagree := hother hself hstep
      refine ⟨(hself !side).closed.congr hagree.2, fun row hrow => ?_⟩
      exact (hself !side).row row (hagree.1.symm.trans hrow)
  exact (hself !side).unchanged (hother hself hstep).1 (hother hself hstep).2

/-! Where the pointers or the roots are the same. -/

theorem run_loadIcebergMetadata {w : Store} {location : String} (hr : w.Reliable)
    (h : w.objects (place.locate location) = some (.metadata m)) :
    (loadIcebergMetadata place location).run w = (.ok m, w) := by
  simp only [loadIcebergMetadata,getObject,Prog.run_bind,Prog.run_get_of_reliable hr,h,
    Prog.run_pure]

theorem run_getMetadataLocation (e : Draw) (h : w.rows (c.key place) = some row) :
    (c.getMetadataLocation place).run c.perform e w = (.ok row, w) := by
  simp only [getMetadataLocation,PointerCatalog.call,bind,Script.bind,Script.run,
    PointerCatalog.perform,h]
  rfl

theorem run_putNew (hr : w.store.Reliable) (e : Draw) (m : IcebergMetadata) :
    (PointerCatalog.call (.putNew place m) : PointerScript Key Guard _).run c.perform e w =
      (.ok (some (metadataPath place e.uuid)), { w with
        store := w.store.write (place.locate (metadataPath place e.uuid)) (.metadata m) }) := by
  simp only [PointerCatalog.call,Script.run,PointerCatalog.perform,hr 0,Bool.false_eq_true,
    if_false,World.tick_of_reliable hr]

theorem run_createTable_new (hr : w.store.Reliable) (e : Draw) (props : TableProperties)
    (h : w.rows (c.key place) = none) : ((c.createTable place props).run c.perform e w).2 =
      { store := w.store.write (place.locate (metadataPath place e.uuid))
          (.metadata (props.metadata place.root e.nowMs))
        rows := update w.rows (c.key place)
          (some (metadataPath place e.uuid, c.guard (metadataPath place e.uuid) none)) } := by
  have hnow : (PointerCatalog.call .now : PointerScript Key Guard _).run c.perform e w =
    (.ok e.nowMs, w) := rfl
  simp only [PointerCatalog.createTable,Script.run_bind,hnow,run_putNew hr]
  simp only [PointerCatalog.call,Script.run,PointerCatalog.perform,h]
  rfl

theorem run_swapLoop {w₁ : PointerWorld Key Guard} {name : String} {n : Nat}
    {change : IcebergMetadata → PointerScript Key Guard (IcebergMetadata × α)}
    {changed : IcebergMetadata × α} (hr : w.store.Reliable) (hrow : w.rows (c.key place) = some row)
    (hm : w.store.objects (place.locate row.1) = some (.metadata m))
    (hchange : (change m).run c.perform e w = (.ok changed, w₁)) (hr₁ : w₁.store.Reliable)
    (hrow₁ : w₁.rows = w.rows) : ((c.swapLoop place name change (n + 1)).run c.perform e w).2 =
      { store := w₁.store.write (place.locate (metadataPath place e.uuid)) (.metadata changed.1)
        rows := update w.rows (c.key place)
          (some (metadataPath place e.uuid, c.guard (metadataPath place e.uuid) (some row.2))) } := by
  have hload : (onStore (loadIcebergMetadata place row.1)).run c.perform e w = (.ok m, w) := by
    rw [run_onStore,run_loadIcebergMetadata hr hm]
  simp only [swapLoop,swapAttempt,Script.run_bind,run_getMetadataLocation e hrow,hload,hchange,
    run_putNew hr₁]
  simp only [PointerCatalog.call,Script.run,PointerCatalog.perform,hrow₁,hrow,if_true]
  rfl

def draw (uuid : String) (h : '/' ∉ uuid.toList) : Draw := ⟨uuid, h, 0⟩

variable (c places) in
theorem pointerStep_of_run (w : PointerWorld Key Guard) (e : Draw) (side : Bool)
    (call : TableCall) : PointerStep c places w (side, call)
      ((call.pointer c (places side)).run c.perform e w).2 := by
  obtain ⟨q,hq,hresult⟩ : ∃ q, Script.Reaches c.perform (fun _ _ _ => True)
      (call.pointer c (places side)) w q ((call.pointer c (places side)).run c.perform e w).2 ∧
      q.result = some ((call.pointer c (places side)).run c.perform e w).1 :=
    Script.reaches_run (fun _ _ => trivial) _ _
  refine ⟨w.store.faults,q,hq,?_⟩
  rw [hresult]
  rfl

theorem run_loadTable_of_row (e : Draw) (hr : w.store.Reliable)
    (hrow : w.rows (c.key place) = some row)
    (hm : w.store.objects (place.locate row.1) = some (.metadata m)) :
    ((c.loadTable place).run c.perform e w).1 = .ok m.toTableMetadata := by
  simp only [PointerCatalog.loadTable,Script.run_bind,run_getMetadataLocation e hrow,run_onStore,
    run_loadIcebergMetadata hr hm]
  rfl

theorem not_pointerApart_of_key (hsame : (places true).locate = (places false).locate)
    (hkey : c.key (places true) = c.key (places false)) : ¬PointerApart c places := by
  intro hapart
  have hr : (emptyCatalog : PointerWorld Key Guard).store.Reliable := fun _ => rfl
  obtain ⟨e,he⟩ : ∃ e, e = draw "u" (by decide) := ⟨_,rfl⟩
  obtain ⟨w,hw⟩ : ∃ w, w = ((c.createTable (places false) plainTable).run c.perform e
    emptyCatalog).2 := ⟨_,rfl⟩
  have hstep : PointerStep c places emptyCatalog (false, .create plainTable) w :=
    hw ▸ pointerStep_of_run c places emptyCatalog e false (.create plainTable)
  rw [run_createTable_new hr e plainTable rfl] at hw
  have hrow : w.reliably.rows (c.key (places true)) = some (metadataPath (places false) e.uuid,
      c.guard (metadataPath (places false) e.uuid) none) := by
    rw [hw,hkey]
    exact update_self ..
  have hm : w.reliably.store.objects ((places true).locate (metadataPath (places false) e.uuid)) =
      some (.metadata (plainTable.metadata (places false).root e.nowMs)) := by
    rw [hw,hsame]
    exact update_self ..
  have hload := (hapart [] emptyCatalog .start false _ w hstep).load e
  rw [Bool.not_false,run_loadTable_of_row e (fun _ => rfl) hrow hm] at hload
  have hbefore : ((c.loadTable (places true)).run c.perform e
      (emptyCatalog : PointerWorld Key Guard).reliably).1 = .error (c.notFound (places true)) := rfl
  rw [hbefore] at hload
  cases hload

/-- A commit that takes nothing over, to a table without partitions. -/
def bareCommit (files : List DataFileEntry) : NewSnapshot where
  snapshotId := 1
  parentSnapshotId := none
  files := files
  operation := .overwrite
  icebergSchema := none
  extraProperties := []
  bloomFilters := []
  equalityDeleteFiles := []

/-- The entries of its manifest, and the metadata that it makes of a new table's. -/
def bareManifest (place : Place) (files : List DataFileEntry) : List ManifestEntry :=
  writeManifestFile (committedFiles place (plainTable.metadata place.root 0) files).2 1 none

def bareMetadata (place : Place) (files : List DataFileEntry) : IcebergMetadata :=
  (plainTable.metadata place.root 0).applyCommit
    (commitArtifacts place (plainTable.metadata place.root 0) (bareCommit files) 0 none none)

theorem run_buildCommit_bare {w : Store} (hr : w.Reliable) (files : List DataFileEntry) :
    (buildCommit place (plainTable.metadata place.root 0) (bareCommit files) 0).run w =
      (.ok (commitArtifacts place (plainTable.metadata place.root 0) (bareCommit files) 0 none none),
        (w.write (place.key (.manifest 1)) (.manifest (bareManifest place files))).write
          (place.key (.manifestList 1)) (.manifestList [⟨place.path (.manifest 1), 0⟩])) := by
  have hput {w : Store} (hr : w.Reliable) (path : String) (o : Object) :
      (putObject place path o).run w = (.ok (), w.write (place.locate path) o) := by
    simp only [putObject,Prog.run_bind,Prog.run_put_of_reliable hr,Prog.run_pure,if_true]
  have hinherited : inheritedManifests place (plainTable.metadata place.root 0)
      (bareCommit files).operation = pure [] := rfl
  have hdeletes (seq : Int) : writeDeleteManifest place (bareCommit files).snapshotId seq
      (committedDeletes place (bareCommit files).equalityDeleteFiles) = pure [] := rfl
  have hstatistics (files' : List DataFileEntry) :
      writeStatistics place (plainTable.metadata place.root 0) (bareCommit files) files' = pure none :=
    if_neg fun h => absurd (show (3 : Int) ≤ 2 from h.1) (by decide)
  have hpartitions (entries : List ManifestListEntry) : writePartitionStatistics place
      (plainTable.metadata place.root 0) (bareCommit files) entries = pure none := rfl
  simp only [buildCommit,Prog.run_bind,hput hr,hinherited,hdeletes,hput (hr.write _ _),
    hstatistics,hpartitions,Prog.run_pure]
  rfl

theorem run_commitSnapshot_bare (hr : w.store.Reliable) (hnow : e.nowMs = 0)
    (hrow : w.rows (c.key place) = some row)
    (hm : w.store.objects (place.locate row.1) = some (.metadata (plainTable.metadata place.root 0)))
    (files : List DataFileEntry) :
    ((c.commitSnapshot place (bareCommit files)).run c.perform e w).2 =
      { store := ((w.store.write (place.key (.manifest 1)) (.manifest (bareManifest place files))).write
          (place.key (.manifestList 1)) (.manifestList [⟨place.path (.manifest 1), 0⟩])).write
          (place.locate (metadataPath place e.uuid)) (.metadata (bareMetadata place files))
        rows := update w.rows (c.key place)
          (some (metadataPath place e.uuid, c.guard (metadataPath place e.uuid) (some row.2))) } := by
  have hcall : (PointerCatalog.call .now : PointerScript Key Guard _).run c.perform e w =
    (.ok e.nowMs, w) := rfl
  have hchange : (commitChange place (bareCommit files) (plainTable.metadata place.root 0)).run
      c.perform e w = (.ok (bareMetadata place files, 1), { w with
        store := (w.store.write (place.key (.manifest 1)) (.manifest (bareManifest place files))).write
          (place.key (.manifestList 1)) (.manifestList [⟨place.path (.manifest 1), 0⟩]) }) := by
    simp only [commitChange,Script.run_bind,hcall,hnow,run_onStore,run_buildCommit_bare hr]
    rfl
  exact run_swapLoop hr hrow hm hchange ((hr.write _ _).write _ _) rfl

theorem run_listFiles_bare (e : Draw) {files : List DataFileEntry} {entries : List ManifestEntry}
    (hr : w.store.Reliable) (hrow : w.rows (c.key place) = some row)
    (hm : w.store.objects (place.locate row.1) = some (.metadata (bareMetadata place files)))
    (hlist : w.store.objects (place.key (.manifestList 1)) =
      some (.manifestList [⟨place.path (.manifest 1), 0⟩]))
    (hmanifest : w.store.objects (place.key (.manifest 1)) = some (.manifest entries)) :
    ((c.listFiles place none).run c.perform e w).1 = .ok (readManifestFile entries) := by
  have hget {path : String} {o : Object} (ho : w.store.objects (place.locate path) = some o) :
      (getObject place path).run w.store = (.ok o, w.store) := by
    simp only [getObject,Prog.run_bind,Prog.run_get_of_reliable hr,ho,Prog.run_pure]
  have hlisted : listFilesFromMetadata place (bareMetadata place files) none =
      getManifestList place (place.path (.manifestList 1)) >>= readManifests 0 (getManifest place) := rfl
  have hrun : (listFilesFromMetadata place (bareMetadata place files) none).run w.store =
      (.ok (readManifestFile entries), w.store) := by
    have hl : (getObject place (place.path (.manifestList 1))).run w.store = _ := hget hlist
    have hf : (getObject place (place.path (.manifest 1))).run w.store = _ := hget hmanifest
    simp only [hlisted,getManifestList,readManifests,getManifest,Prog.run_bind,hl,hf,
      Prog.run_pure,ne_eq,not_true_eq_false,if_false,List.append_nil]
  simp only [PointerCatalog.listFiles,Script.run_bind,run_getMetadataLocation e hrow,run_onStore,
    run_loadIcebergMetadata hr hm,hrun]


theorem run_pointer_commit (s : NewSnapshot) (e : Draw) (w : PointerWorld Key Guard) :
    (((TableCall.commit s).pointer c place).run c.perform e w).2 =
      ((c.commitSnapshot place s).run c.perform e w).2 := by
  simp only [TableCall.pointer,Script.run_bind]
  rcases hrun : (c.commitSnapshot place s).run c.perform e w with ⟨_ | id, w'⟩
  · simp only [hrun]
  · simp only [hrun]
    rfl

/-- The new pointer of a table, and that nothing but the objects at `written` has changed. -/
structure Repointed (c : PointerCatalog Key Guard) (place : Place) (e : Draw) (m : IcebergMetadata)
    (written : Set String) (w w' : PointerWorld Key Guard) : Prop where
  reliable : w'.store.Reliable
  row : ∃ guard, w'.rows (c.key place) = some (metadataPath place e.uuid, guard)
  metadata : w'.store.objects (place.locate (metadataPath place e.uuid)) = some (.metadata m)
  rows : ∀ key ≠ c.key place, w'.rows key = w.rows key
  objects : ∀ k ∉ written, k ≠ place.locate (metadataPath place e.uuid) →
    w'.store.objects k = w.store.objects k

theorem exists_create (hr : w.store.Reliable) (e : Draw) (side : Bool)
    (h : w.rows (c.key (places side)) = none) :
    ∃ w', PointerStep c places w (side, .create plainTable) w' ∧
      Repointed c (places side) e (plainTable.metadata (places side).root e.nowMs) ∅ w w' := by
  refine ⟨_, pointerStep_of_run c places w e side (.create plainTable), ?_⟩
  have hrun := run_createTable_new hr e plainTable h
  rw [TableCall.pointer,hrun]
  exact ⟨hr.write _ _, ⟨_, update_self ..⟩, update_self ..,
    fun _ hkey => update_of_ne hkey .., fun _ _ hk => update_of_ne hk ..⟩

/-- After a bare commit the manifest holds its files, whoever else committed under the root. -/
theorem exists_commit {side : Bool} {e₀ : Draw} (hlocate : KeepsApart (places side).locate)
    (hr : w.store.Reliable) (hnow : e.nowMs = 0)
    (h : ∃ guard, w.rows (c.key (places side)) = some (metadataPath (places side) e₀.uuid, guard))
    (hm : w.store.objects ((places side).locate (metadataPath (places side) e₀.uuid)) =
      some (.metadata (plainTable.metadata (places side).root 0))) (files : List DataFileEntry) :
    ∃ w', PointerStep c places w (side, .commit (bareCommit files)) w' ∧
      Repointed c (places side) e (bareMetadata (places side) files)
        {(places side).key (.manifest 1), (places side).key (.manifestList 1)} w w' ∧
      w'.store.objects ((places side).key (.manifestList 1)) =
        some (.manifestList [⟨(places side).path (.manifest 1), 0⟩]) ∧
      w'.store.objects ((places side).key (.manifest 1)) =
        some (.manifest (bareManifest (places side) files)) := by
  obtain ⟨guard,hrow⟩ := h
  refine ⟨_, pointerStep_of_run c places w e side (.commit (bareCommit files)), ?_⟩
  rw [run_pointer_commit,run_commitSnapshot_bare hr hnow hrow hm]
  have hmanifest := (metadataPath_ne_key hlocate e 1 (p := .manifest 1) (by simp [commitPaths])).symm
  have hlist := (metadataPath_ne_key hlocate e 1 (p := .manifestList 1) (by simp [commitPaths])).symm
  have hne : (places side).key (.manifest 1) ≠ (places side).key (.manifestList 1) := by
    rw [Ne,key_inj_of_keepsApart hlocate]
    simp
  refine ⟨⟨((hr.write _ _).write _ _).write _ _, ⟨_, update_self ..⟩,
    update_self .., fun _ hkey => update_of_ne hkey .., fun k hk hnew => ?_⟩, ?_, ?_⟩
  · have hk' : k ≠ (places side).key (.manifest 1) ∧ k ≠ (places side).key (.manifestList 1) := by
      simpa using hk
    refine (update_of_ne hnew ..).trans ((update_of_ne hk'.2 ..).trans ?_)
    exact update_of_ne hk'.1 ..
  · exact (update_of_ne hlist ..).trans (update_self ..)
  · refine (update_of_ne hmanifest ..).trans ((update_of_ne hne ..).trans ?_)
    exact update_self ..

/-- Under one root, commits of one snapshot id overwrite each other's manifests. -/
theorem not_pointerApart_of_root (hlocate : KeepsApart (places false).locate)
    (hsame : (places true).locate = (places false).locate)
    (hkey : c.key (places false) ≠ c.key (places true))
    (hroot : (places true).root = (places false).root) : ¬PointerApart c places := by
  intro hapart
  have hlocate' : KeepsApart (places true).locate := hsame ▸ hlocate
  have hpath (uuid : String) : (places true).locate (metadataPath (places true) uuid) =
      (places false).locate (metadataPath (places false) uuid) := by
    rw [hsame,metadataPath,metadataPath,hroot]
  have hobject (p : MetaPath) : (places true).key p = (places false).key p := by
    rw [Place.key,Place.key,Place.path,Place.path,hsame,hroot]
  have hnames {e e' : Draw} (hne : e.uuid ≠ e'.uuid) :
      (places false).locate (metadataPath (places false) e.uuid) ≠
        (places false).locate (metadataPath (places false) e'.uuid) := by
    intro h
    have hslash (e : Draw) : '/' ∉ (e.uuid ++ ".metadata.json").toList := by simp [e.slashFree]
    have heq := (metadataName_inj (hslash e) (hslash e') (hlocate ⟨_,_,rfl⟩ ⟨_,_,rfl⟩ h)).2
    exact hne ((String.append_left_inj _).1 heq)
  have hoff (e : Draw) : (places false).locate (metadataPath (places false) e.uuid) ∉
      ({(places false).key (.manifest 1), (places false).key (.manifestList 1)} : Set String) := by
    rintro (h | h)
    · exact metadataPath_ne_key hlocate e 1 (by simp [commitPaths]) h
    · exact metadataPath_ne_key hlocate e 1 (by simp [commitPaths]) h
  -- Both tables are created, and each commits its snapshot 1.
  obtain ⟨w₁,h₁,hw₁⟩ := exists_create (c := c) (w := emptyCatalog) (fun _ => rfl)
    (draw "1" (by decide)) false rfl
  obtain ⟨w₂,h₂,hw₂⟩ := exists_create hw₁.reliable (draw "2" (by decide)) true
    (hw₁.rows _ hkey.symm)
  have hrow₂ := (hw₂.rows _ hkey).trans hw₁.row.choose_spec
  have hm₂ := (hw₂.objects _ (Set.notMem_empty _) (by
    rw [hpath]
    exact hnames (by decide))).trans hw₁.metadata
  obtain ⟨w₃,h₃,hw₃,hlist₃,hmanifest₃⟩ := exists_commit (e := draw "3" (by decide)) hlocate
    hw₂.reliable rfl ⟨_,hrow₂⟩ hm₂ []
  have hrow₃ := (hw₃.rows _ hkey.symm).trans hw₂.row.choose_spec
  have hm₃ := (hw₃.objects _ (by
    rw [hpath]
    exact hoff _) (by
    rw [hpath]
    exact hnames (by decide))).trans hw₂.metadata
  obtain ⟨w₄,h₄,hw₄,hlist₄,hmanifest₄⟩ := exists_commit (e := draw "4" (by decide)) hlocate'
    hw₃.reliable rfl ⟨_,hrow₃⟩ hm₃ [demoFile "data/x.parquet" 1]
  have hrow₄ := (hw₄.rows _ hkey).trans hw₃.row.choose_spec
  have hm₄ := (hw₄.objects _ (by
    rw [hobject,hobject]
    exact hoff _) (by
    rw [hpath]
    exact hnames (by decide))).trans hw₃.metadata
  rw [hobject] at hlist₄ hmanifest₄
  have hpaths : (places true).path (.manifest 1) = (places false).path (.manifest 1) := by
    rw [Place.path,Place.path,hroot]
  rw [hpaths] at hlist₄
  -- The first table lists the other one's file.
  have hlist := (hapart _ w₃ (((History.start.step h₁).step h₂).step h₃) true _ w₄ h₄).list
    (draw "5" (by decide)) none
  have hbefore : ((c.listFiles (places false) none).run c.perform (draw "5" (by decide))
      w₃.reliably).1 = _ :=
    run_listFiles_bare _ (fun _ => rfl) hw₃.row.choose_spec hw₃.metadata hlist₃ hmanifest₃
  have hafter : ((c.listFiles (places false) none).run c.perform (draw "5" (by decide))
      w₄.reliably).1 = _ :=
    run_listFiles_bare _ (fun _ => rfl) hrow₄ hm₄ hlist₄ hmanifest₄
  rw [Bool.not_true,hbefore,hafter,Except.ok.injEq] at hlist
  exact absurd (congrArg List.length hlist) (Nat.succ_ne_zero 0)


end Pointer

def TableIdent.directory (table : TableIdent) : String := table.tableNamespace ++ "/" ++ table.name

section Tables

variable {warehouse : String} {locate : String → String} {a b : TableIdent}

theorem root_hadoopPlace_eq_iff :
    (hadoopPlace warehouse locate a).root = (hadoopPlace warehouse locate b).root ↔
      a.directory = b.directory := by
  simp only [hadoopPlace,tableRoot,TableIdent.directory]
  split
  · rfl
  · simp only [String.append_assoc,String.append_right_inj]

theorem root_gluePlace_eq_iff :
    (gluePlace warehouse locate a).root = (gluePlace warehouse locate b).root ↔
      a.directory = b.directory := by
  simp only [gluePlace,TableIdent.directory,String.append_assoc,String.append_right_inj]

theorem keepsApart_id : KeepsApart id := fun _ _ _ _ h => h

end Tables
end AiLake
