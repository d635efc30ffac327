import AiLake.SchemaUpdate
import AiLake.StoreProgram.History
import AiLake.Listing

/-! Histories of commits and schema evolutions on one table: field ids and snapshots. -/
namespace AiLake

open StoreProgram List

variable {site : Site} {m m' : IcebergMetadata} {views : List View} {w w' : Store}

theorem run_evolveSchema_ok (hst : Stored site w.objects m views) {e : SchemaEvolution}
    {nowMs id : Int} (h : (evolveSchema site e nowMs).run w = (.ok id, w')) :
    ∃ m', m.evolved e nowMs = some m' ∧ id = m'.currentSchemaId ∧
      Stored site w'.objects m' views := by
  obtain ⟨m₀,w₁,h₁,h⟩ := Prog.run_bind_ok.1 h
  obtain ⟨rfl,rfl⟩ := run_loadRawMetadata_ok hst h₁
  cases he : m₀.evolved e nowMs with
  | none =>
    rw [he] at h
    cases h
  | some m' =>
    rw [he] at h
    obtain ⟨_,w₂,h₂,h⟩ := Prog.run_bind_ok.1 h
    obtain ⟨n,hobj,-,-⟩ := run_saveMetadata_ok h₂
    cases h
    obtain ⟨_,-,rfl⟩ := Option.map_eq_some_iff.1 he
    refine ⟨_,rfl,rfl,?_⟩
    rw [hobj]
    exact stored_of_save hst.toMetadataNames hst.views hst.current hst.distinct

inductive SchemaCall where
  | commit (s : NewSnapshot) (nowMs : Int)
  | evolve (e : SchemaEvolution) (nowMs : Int)

namespace SchemaCall

def program (site : Site) : SchemaCall → Program Unit
  | .commit s nowMs => do
    let _ ← commitSnapshot site s nowMs
    pure ()
  | .evolve e nowMs => do
    let _ ← evolveSchema site e nowMs
    pure ()

def rename : SchemaCall → String → String
  | .commit _ _ => id
  | .evolve e _ => renamedName e.renames

/-- The call fits the table: a commit has a new snapshot id and its schema, if any, continues the
table's; an evolution leaves no name to two columns. -/
def Fits (site : Site) (objects : String → Option Object) (m : IcebergMetadata) : SchemaCall → Prop
  | .commit s _ => FreshSnapshot site objects m s.snapshotId ∧
      ∀ u, s.icebergSchema = some u → u.Continues m
  | .evolve e _ => e.NamesApart m

end SchemaCall

/-- The metadata that the catalog reads from this store. -/
def Loads (site : Site) (w : Store) (m : IcebergMetadata) : Prop :=
  ((loadRawMetadata site).run w.reliably).1 = .ok m

structure SchemaStep where
  before : IcebergMetadata
  call : SchemaCall
  after : IcebergMetadata

/-- Calls that succeeded one after the other, each fitting the table it met. -/
inductive SchemaHistory (site : Site) (start : Store) : List SchemaStep → Store → Prop
  | start : SchemaHistory site start [] start
  | step {steps : List SchemaStep} {w w' : Store} {m m' : IcebergMetadata} {call : SchemaCall}
      (h : SchemaHistory site start steps w) (before : Loads site w m)
      (fits : call.Fits site w.objects m) (run : (call.program site).run w = (.ok (), w'))
      (after : Loads site w' m') : SchemaHistory site start (steps ++ [⟨m, call, m'⟩]) w'

theorem Loads.eq_of_stored (h : Loads site w m') (hst : Stored site w.objects m views) :
    m' = m := by
  have hst' : Stored site w.reliably.objects m views := hst
  rw [Loads,run_loadRawMetadata w.reliable_reliably hst'] at h
  exact (Except.ok.inj h).symm

theorem fieldIdsKept_of_call {call : SchemaCall} {earlier : List IcebergMetadata}
    (hst : Stored site w.objects m views) (hm : m.FieldIdsSound)
    (hearlier : ∀ e ∈ earlier, ∀ c ∈ e.columns, c.id ≤ m.lastColumnId)
    (hfits : call.Fits site w.objects m) (hrun : (call.program site).run w = (.ok (), w')) :
    ∃ m' views', Stored site w'.objects m' views' ∧
      FieldIdsKept earlier m call.rename m' ∧ m'.FieldIdsSound := by
  cases call with
  | evolve e nowMs =>
    obtain ⟨id,w₁,h₁,h₂⟩ := Prog.run_bind_ok.1 hrun
    cases h₂
    obtain ⟨m',he,-,hst'⟩ := run_evolveSchema_ok hst h₁
    exact ⟨m', views, hst', fieldIdsKept_of_evolved hm hfits hearlier he⟩
  | commit s nowMs =>
    obtain ⟨id,w₁,h₁,h₂⟩ := Prog.run_bind_ok.1 hrun
    cases h₂
    obtain ⟨stats,pstats,-,hst',-⟩ := run_commitSnapshot_ok hst hfits.1 h₁
    refine ⟨_,_,hst',?_⟩
    have hc := m.currentSchemaId_applyCommit (commitArtifacts site m s nowMs stats pstats)
    have hs := m.schemas_applyCommit (commitArtifacts site m s nowMs stats pstats)
    have hl := m.lastColumnId_applyCommit (commitArtifacts site m s nowMs stats pstats)
    have hpatch : (commitArtifacts site m s nowMs stats pstats).schemaPatch =
        s.icebergSchema.map (schemaPatch m.partitionSpecs) := rfl
    rw [hpatch] at hs hl
    cases hu : s.icebergSchema with
    | none =>
      rw [hu] at hs hl
      exact fieldIdsKept_of_eq hm hs hc hl
    | some u =>
      rw [hu] at hs hl
      exact fieldIdsKept_of_continues hm (hfits.2 u hu) hearlier hs hc hl

theorem FieldIdsKept.earlier_le {earlier : List IcebergMetadata} {rename : String → String}
    (h : FieldIdsKept earlier m rename m') (hm : m.FieldIdsSound)
    (hearlier : ∀ e ∈ earlier, ∀ c ∈ e.columns, c.id ≤ m.lastColumnId) :
    ∀ e ∈ earlier ++ [m], ∀ c ∈ e.columns, c.id ≤ m'.lastColumnId := by
  intro e he c hc
  have hle : c.id ≤ m.lastColumnId := by
    rcases mem_append.1 he with he | he
    · exact hearlier e he c hc
    · rw [mem_singleton] at he
      exact hm.bounded c (he ▸ hc)
  exact hle.trans h.lastColumnId

theorem columns_bootstrap (defs : List PartitionDef) :
    (defs.zipIdx.map fun p => plainField (p.2 + 1) p.1.column p.1.columnType).flatMap (·.columns) =
      defs.zipIdx.map fun p => ⟨p.2 + 1, [p.1.column]⟩ := by
  rw [flatMap_map,map_eq_flatMap]
  rfl

theorem fieldIdsSound_new (location : String) (formatVersion : Nat) (partitionBy columnType : Option String)
    (partitionFields : List PartitionDef) (properties : Properties) (nowMs : Int)
    (hnames : (partitionFields.map (·.column)).Nodup) :
    (IcebergMetadata.new location formatVersion partitionBy columnType partitionFields properties
      nowMs).FieldIdsSound := by
  set m := IcebergMetadata.new location formatVersion partitionBy columnType partitionFields
    properties nowMs
  obtain ⟨defs,hdefs,hs,hc,hl⟩ : ∃ defs : List PartitionDef, (defs.map (·.column)).Nodup ∧
      m.schemas = [⟨0, defs.zipIdx.map fun p => plainField (p.2 + 1) p.1.column p.1.columnType⟩] ∧
      m.currentSchemaId = 0 ∧ m.lastColumnId = defs.length := by
    refine ⟨_,?_,rfl,rfl,rfl⟩
    split
    · cases partitionBy <;> simp
    · exact hnames
  have hcols : m.columns = defs.zipIdx.map fun p => ⟨p.2 + 1, [p.1.column]⟩ := by
    rw [IcebergMetadata.columns,hs,← columns_bootstrap]
    exact append_nil _
  have hcur : m.currentColumns = m.columns := by
    simp [IcebergMetadata.currentColumns,IcebergMetadata.currentFields,
      IcebergMetadata.currentSchema?,IcebergMetadata.columns,IcebergSchema.columns,hs,hc]
  have hids : m.columns.map (·.id) = (defs.zipIdx.map Prod.snd).map fun (i : Nat) => (i : Int) + 1 := by
    rw [hcols,map_map,map_map]
    rfl
  have hpaths : m.columns.map (·.path) = (defs.map (·.column)).map fun name => [name] := by
    rw [hcols,map_map,map_map]
    nth_rewrite 2 [← zipIdx_map_fst 0 defs]
    rw [map_map]
    rfl
  refine ⟨?_,?_,?_,?_⟩
  · intro s hmem
    rw [hs,mem_singleton] at hmem
    rw [hmem,hc]
  · intro s hmem
    have hone : m.columns = s.columns := by
      rw [hs,mem_singleton] at hmem
      rw [hmem,IcebergMetadata.columns,hs]
      exact append_nil _
    rw [← hone,hids,zipIdx_map_snd]
    refine List.Nodup.map (fun i j hij => ?_) nodup_range'
    change (i : Int) + 1 = j + 1 at hij
    omega
  · intro c hc'
    rw [hcols] at hc'
    obtain ⟨⟨d,i⟩,hp,rfl⟩ := mem_map.1 hc'
    have hi := snd_lt_of_mem_zipIdx hp
    simp only at hi ⊢
    omega
  · rw [hcur,hpaths]
    exact List.Nodup.map (fun a b hab => (List.cons.inj hab).1) hdefs

def demoUpdate : IcebergSchemaUpdate :=
  arrowSchemaToIcebergUpdate [⟨"id", .int64, false⟩] ⟨"embedding", 4, .f32⟩ []

def demoWrite (id : SnapshotId) : SchemaCall :=
  .commit { demoAppend id [demoFile "data/a.parquet" 1] with icebergSchema := some demoUpdate } 0

def demoAddColumn (name : String) : SchemaCall :=
  .evolve ⟨[], [⟨name, "string", false, none, none, none⟩], []⟩ 0

def SchemaCall.apply (call : SchemaCall) (w : Store) : Store := ((call.program demoSite).run w).2

theorem SchemaCall.run_apply {call : SchemaCall} {w : Store}
    (h : ((call.program demoSite).run w).1 = .ok ()) :
    (call.program demoSite).run w = (.ok (), call.apply w) := Prod.ext h rfl

def demoLoad (w : Store) : IcebergMetadata :=
  ((loadRawMetadata demoSite).run w.reliably).1.toOption.getD (demoMetadata 2)

theorem loads_demoLoad {w : Store}
    (h : ((loadRawMetadata demoSite).run w.reliably).1.toBool = true) :
    Loads demoSite w (demoLoad w) := by
  unfold Loads demoLoad
  cases hr : ((loadRawMetadata demoSite).run w.reliably).1 with
  | error e =>
    rw [hr] at h
    cases h
  | ok m => rfl

/-! The snapshots. -/

/-- A call that succeeds, whatever reads fail; the snapshot id of a commit is new. -/
structure CatalogStep (site : Site) (w : Store) (call : SchemaCall) (w' : Store) : Prop where
  run : (call.program site).run w = (.ok (), w')
  fresh : ∀ s nowMs m, call = .commit s nowMs → Loads site w m →
    FreshSnapshot site w.objects m s.snapshotId

/-- A later state of the table: the earlier snapshots come first, with the views they had. -/
structure GrownFrom (site : Site) (m : IcebergMetadata) (views : List View) (w : Store)
    (m' : IcebergMetadata) (views' : List View) : Prop where
  stored : Stored site w.objects m' views'
  snapshots : m.snapshots <+: m'.snapshots
  views : views <+: views'

theorem CatalogStep.grown {call : SchemaCall} (h : CatalogStep site w call w')
    (hst : Stored site w.objects m views) : ∃ m' views', GrownFrom site m views w' m' views' := by
  obtain ⟨hrun,hfresh⟩ := h
  cases call with
  | evolve e nowMs =>
    obtain ⟨_,_,h₁,h₂⟩ := Prog.run_bind_ok.1 hrun
    cases h₂
    obtain ⟨m',he,-,hst'⟩ := run_evolveSchema_ok hst h₁
    obtain ⟨_,-,rfl⟩ := Option.map_eq_some_iff.1 he
    exact ⟨_, views, hst', prefix_rfl, prefix_rfl⟩
  | commit s nowMs =>
    obtain ⟨_,_,h₁,h₂⟩ := Prog.run_bind_ok.1 hrun
    cases h₂
    have hload : Loads site w m := congrArg Prod.fst (run_loadRawMetadata w.reliable_reliably hst)
    obtain ⟨stats,pstats,-,hst',-⟩ := run_commitSnapshot_ok hst (hfresh s nowMs m rfl hload) h₁
    refine ⟨_, _, hst', ?_, prefix_append _ _⟩
    rw [IcebergMetadata.snapshots_applyCommit]
    exact prefix_append _ _

theorem GrownFrom.viewOf_eq {w₀ : Store} {views' : List View}
    (h : GrownFrom site m views w m' views')
    (hst : Stored site w₀.objects m views) {snap : IcebergSnapshot} (hsnap : snap ∈ m.snapshots) :
    viewOf site w.objects snap = viewOf site w₀.objects snap := by
  obtain ⟨hst',⟨more,hmore⟩,more',hmore'⟩ := h
  have hall := hst'.views
  have hlen := congrArg length hst.views
  rw [← hmore,← hmore',map_append,map_append] at hall
  have hsame := (append_inj hall (by simpa using hlen)).1
  exact map_inj_left.1 (hsame.trans hst.views.symm) snap hsnap

/-- Along every history of commits and schema evolutions no snapshot is lost or changed: the log
grows at its end, and a snapshot lists for ever the files and equality deletes that it listed first. -/
theorem catalogHistory_keeps_snapshots {start later : Store} {calls : List SchemaCall}
    (hst : Stored site start.objects m views) (h : History (CatalogStep site) start calls later) :
    ∃ m', Loads site later m' ∧ m.snapshots <+: m'.snapshots ∧
      ∀ snap ∈ m.snapshots, ∃ files deletes, ∀ w ∈ [start, later],
        ((listFiles site (some snap.snapshotId)).run w.reliably).1 = .ok files ∧
        ((listEqualityDeletes site (some snap.snapshotId)).run w.reliably).1 = .ok deletes := by
  obtain ⟨m',views',hgrown⟩ : ∃ m' views', GrownFrom site m views later m' views' := by
    refine h.invariant (fun w => ∃ m' views', GrownFrom site m views w m' views') ?_
      ⟨_, _, hst, prefix_rfl, prefix_rfl⟩
    rintro w call w' ⟨m₁,views₁,h₁⟩ hstep
    obtain ⟨m₂,views₂,h₂⟩ := hstep.grown h₁.stored
    exact ⟨m₂, views₂, h₂.stored, h₁.snapshots.trans h₂.snapshots, h₁.views.trans h₂.views⟩
  refine ⟨m', congrArg Prod.fst (run_loadRawMetadata later.reliable_reliably hgrown.stored),
    hgrown.snapshots, fun snap hsnap => ?_⟩
  have hview : viewOf site start.objects snap ∈ views.map some := hst.views ▸ mem_map_of_mem hsnap
  obtain ⟨v,-,hv⟩ := mem_map.1 hview
  obtain ⟨hfiles,hdeletes⟩ := run_list start.reliable_reliably hst hsnap hv.symm (Option.some_or ..)
  obtain ⟨hfiles',hdeletes'⟩ := run_list later.reliable_reliably hgrown.stored
    (hgrown.snapshots.subset hsnap) ((hgrown.viewOf_eq hst hsnap).trans hv.symm) (Option.some_or ..)
  exact ⟨v.files, v.deletes, by simp [hfiles,hdeletes,hfiles',hdeletes']⟩

theorem catalogHistory_keeps_snapshots_second :
    let start := (demoWrite 1).apply (demoTable 2)
    let later := (demoWrite 2).apply start
    ∃ files, ∀ w ∈ [start, later],
      ((listFiles demoSite (some 1)).run w.reliably).1 = .ok files := by
  intro start later
  have hstep (w : Store) (id : SnapshotId) (hrun : (((demoWrite id).program demoSite).run w).1 = .ok ())
      (hloads : ((loadRawMetadata demoSite).run w.reliably).1.toBool = true)
      (hfresh : FreshSnapshot demoSite w.objects (demoLoad w) id) :
      CatalogStep demoSite w (demoWrite id) ((demoWrite id).apply w) := by
    refine ⟨SchemaCall.run_apply hrun, fun s nowMs m hcall hload => ?_⟩
    cases hcall
    cases hload.symm.trans (loads_demoLoad hloads)
    exact hfresh
  have h₁ := hstep (demoTable 2) 1 (by decide) (by decide) ⟨by decide, by decide⟩
  have h₂ := hstep start 2 (by decide) (by decide) ⟨by decide, by decide⟩
  obtain ⟨m,views,hst,-,-⟩ := h₁.grown (stored_demoTable 2)
  obtain ⟨-,-,-,hkeeps⟩ := catalogHistory_keeps_snapshots hst (.step .start h₂)
  obtain rfl : demoLoad start = m := (loads_demoLoad (by decide)).eq_of_stored hst
  obtain ⟨snap,hsnap,hid⟩ : ∃ snap ∈ (demoLoad start).snapshots, snap.snapshotId = 1 := by decide
  obtain ⟨files,deletes,hlists⟩ := hkeeps snap hsnap
  rw [hid] at hlists
  exact ⟨files, fun w hw => (hlists w hw).1⟩

end AiLake
