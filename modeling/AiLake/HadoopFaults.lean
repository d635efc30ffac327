import AiLake.SchemaHistory

/-! Commits and creations on a store whose calls may fail. An unreadable version hint counts as
version 0; an unreleased lock turns a published commit into an error. -/
namespace AiLake

open StoreProgram Function Prog

variable {site : Site} {s : NewSnapshot} {nowMs : Int} {w w' : Store} {m m' : IcebergMetadata}
  {o o' : String → Option Object} {w₁ : Store}

/-! What saving does. -/

/-- The version that is written, given whether the hint can be read. -/
def savedVersion (site : Site) (w : Store) : Nat :=
  (if w.faults 0 then 0 else versionOf site w.objects) + 1

variable (site) in
theorem run_saveMetadata (m : IcebergMetadata) (w : Store) :
    let r := (saveMetadata site m).run w
    let written := update w.objects (site.key (.metadataJson (savedVersion site w)))
      (some (.metadata m))
    (w.faults 1 = true ∧ r.1.toBool = false ∧ r.2.objects = w.objects) ∨
    (w.faults 1 = false ∧ w.faults 2 = true ∧ r.1.toBool = false ∧ r.2.objects = written) ∨
    (w.faults 1 = false ∧ w.faults 2 = false ∧ r.1.toBool = true ∧ r.2.faults 0 = w.faults 3 ∧
      r.2.objects = update written (site.key .versionHint)
        (some (.versionHint (some (savedVersion site w))))) := by
  intro r written
  have hr : r = (saveMetadata site m).run w := rfl
  simp only [saveMetadata,run_bind,run_currentVersion,run_putObject,World.tick_faults,
    Nat.zero_add] at hr
  cases h₁ : w.faults 1 with
  | true =>
    left
    simp only [h₁,if_true] at hr
    rw [hr]
    exact ⟨rfl,rfl,rfl⟩
  | false =>
    right
    simp only [h₁,Bool.false_eq_true,if_false,World.write_faults,World.tick_faults] at hr
    cases h₂ : w.faults 2 with
    | true =>
      left
      simp only [h₂,if_true] at hr
      rw [hr]
      exact ⟨rfl,rfl,rfl,rfl⟩
    | false =>
      right
      simp only [h₂,Bool.false_eq_true,if_false] at hr
      rw [hr]
      exact ⟨rfl,rfl,rfl,rfl,rfl⟩

/-! What comes before it in a commit. -/

def prepareCommit (site : Site) (s : NewSnapshot) (nowMs : Int) : Program IcebergMetadata := do
  let m ← loadRawMetadata site
  let artifacts ← buildCommit site m s nowMs
  pure (m.applyCommit artifacts)

def reachSave (site : Site) (s : NewSnapshot) (nowMs : Int) : Program IcebergMetadata := do
  Prog.enter
  match ← Prog.tryLock (site.key .commitLock) with
  | some true => prepareCommit site s nowMs
  | _ => .fail .store

theorem run_commitBody (w : Store) : (commitBody site s nowMs).run w =
    match (prepareCommit site s nowMs).run w with
    | (.error e, w₁) => (.error e, w₁)
    | (.ok m, w₁) =>
      match (saveMetadata site m).run w₁ with
      | (.error e, w₂) => (.error e, w₂)
      | (.ok _, w₂) => (.ok s.snapshotId, w₂) := by
  simp only [commitBody,prepareCommit,run_bind]
  rcases (loadRawMetadata site).run w with ⟨e | m, w₁⟩
  · rfl
  rcases hbuild : (buildCommit site m s nowMs).run w₁ with ⟨e | a, w₂⟩
  · simp only [hbuild]
  obtain ⟨stats,pstats,-,rfl,-⟩ := run_buildCommit_ok hbuild
  simp only [hbuild,run_pure]
  rcases (saveMetadata site _).run w₂ with ⟨e | u, w₃⟩ <;> rfl

variable (site s nowMs) in
theorem run_commitSnapshot (w : Store) :
    let r := (commitSnapshot site s nowMs).run w
    match (reachSave site s nowMs).run w with
    | (.error _, w₁) => r.1.toBool = false ∧ r.2.objects = w₁.objects
    | (.ok m, w₁) =>
      let saved := (saveMetadata site m).run w₁
      r.2.objects = saved.2.objects ∧ r.1.toBool = (saved.1.toBool && !saved.2.faults 0) := by
  intro r
  have hr : r = (commitSnapshot site s nowMs).run w := rfl
  simp only [commitSnapshot,run_bind,run_enter,run_tryLock] at hr
  simp only [reachSave,run_bind,run_enter,run_tryLock]
  cases hfault : (w.tick.setMutex true).faults 0 with
  | true =>
    simp only [hfault,if_true,run_bind,run_leave,run_fail,true_or] at hr ⊢
    rw [hr]
    exact ⟨rfl,rfl⟩
  | false =>
    cases hlocked : (w.tick.setMutex true).locked (site.key .commitLock) with
    | true =>
      simp only [hfault,hlocked,Bool.false_eq_true,if_false,Bool.not_true,or_true,if_true,
        run_bind,run_leave,run_fail] at hr ⊢
      rw [hr]
      exact ⟨rfl,rfl⟩
    | false =>
      simp only [hfault,hlocked,Bool.false_eq_true,if_false,Bool.not_false,or_self,
        run_bind,run_attempt,run_commitBody,run_unlock,run_leave] at hr ⊢
      rcases hprepare : (prepareCommit site s nowMs).run
        ((w.tick.setMutex true).tick.setLock (site.key .commitLock) true) with ⟨e | m, w₁⟩
      · simp only [hprepare,run_fail] at hr ⊢
        rw [hr]
        exact ⟨rfl, by dsimp only; split <;> rfl⟩
      · simp only [hprepare] at hr ⊢
        rcases hsave : (saveMetadata site m).run w₁ with ⟨e | u, w₂⟩
        · simp only [hsave,run_fail] at hr ⊢
          rw [hr]
          exact ⟨by dsimp only; split <;> rfl, rfl⟩
        · cases hrelease : w₂.faults 0 with
          | true =>
            simp only [hsave,hrelease,Bool.not_true,if_true,Bool.false_eq_true,if_false,
              run_fail] at hr ⊢
            rw [hr]
            exact ⟨rfl,rfl⟩
          | false =>
            simp only [hsave,hrelease,Bool.not_false,if_true,Bool.false_eq_true,if_false,
              run_pure] at hr ⊢
            rw [hr]
            exact ⟨rfl,rfl⟩

theorem touches_buildCommit (m : IcebergMetadata) :
    (buildCommit site m s nowMs).Touches (commitKeys site s.snapshotId) := by
  have hstatistics (p : MetaPath) (hp : p ∈ commitPaths s.snapshotId) (o : Object)
      (ref : StatisticsRef) :
      (do if ← Prog.put (site.locate (site.path p)) o then pure (some ref) else pure none :
        Program (Option StatisticsRef)).Touches (commitKeys site s.snapshotId) :=
    (touches_put (key_mem_commitKeys hp) o).bind fun stored => by
      cases stored <;> exact touches_pure _
  refine (touches_putObject (key_mem_commitKeys (by simp [commitPaths])) _).bind fun _ => ?_
  refine (readOnly_inheritedManifests m s.operation).touches.bind fun inherited => ?_
  refine Prog.Touches.bind ?_ fun deletes => ?_
  · unfold writeDeleteManifest
    split
    · exact touches_pure _
    · exact (touches_putObject (key_mem_commitKeys (by simp [commitPaths])) _).bind fun _ => touches_pure _
  refine (touches_putObject (key_mem_commitKeys (by simp [commitPaths])) _).bind fun _ => ?_
  refine Prog.Touches.bind ?_ fun statistics => ?_
  · unfold writeStatistics
    split
    · exact hstatistics _ (by simp [commitPaths]) _ _
    · exact touches_pure _
  refine Prog.Touches.bind ?_ fun partitionStatistics => touches_pure _
  unfold writePartitionStatistics
  split
  · exact touches_pure _
  · split
    · exact touches_pure _
    · exact (readOnly_readForStatistics _).touches.bind fun entries =>
        hstatistics _ (by simp [commitPaths]) _ _

/-! The names of the catalog. -/

structure SameCatalog (site : Site) (o o' : String → Option Object) : Prop where
  hint : o' (site.key .versionHint) = o (site.key .versionHint)
  version : ∀ k, o' (site.key (.metadataJson k)) = o (site.key (.metadataJson k))

theorem SameCatalog.versionOf (h : SameCatalog site o o') :
    versionOf site o' = versionOf site o := by
  unfold AiLake.versionOf
  rw [h.hint]

/-- A table that can be loaded. No version 0 is ever written. -/
structure TableState (site : Site) (objects : String → Option Object) : Prop where
  fromOne : objects (site.key (.metadataJson 0)) = none
  loads : ∃ m, objects (site.key (.metadataJson (versionOf site objects))) = some (.metadata m)

theorem TableState.congr (h : TableState site o) (hsame : SameCatalog site o o') :
    TableState site o' where
  fromOne := (hsame.version 0).trans h.fromOne
  loads := by
    rw [hsame.versionOf,hsame.version]
    exact h.loads

theorem TableState.pos (h : TableState site o) : 0 < versionOf site o := by
  rw [Nat.pos_iff_ne_zero]
  intro hzero
  obtain ⟨m,hm⟩ := h.loads
  rw [hzero,h.fromOne] at hm
  cases hm

theorem TableState.version_ne_one (h : TableState site o)
    (hnone : o (site.key (.metadataJson 1)) = none) : versionOf site o ≠ 1 := by
  intro hone
  obtain ⟨m,hm⟩ := h.loads
  rw [hone,hnone] at hm
  cases hm

/-- The hint does not go back, and no version up to it is overwritten. -/
structure Forward (site : Site) (o o' : String → Option Object) : Prop where
  version : versionOf site o ≤ versionOf site o'
  kept : ∀ k, 0 < k → k ≤ versionOf site o → ∀ x, o (site.key (.metadataJson k)) = some x →
    o' (site.key (.metadataJson k)) = some x

theorem SameCatalog.forward (h : SameCatalog site o o') : Forward site o o' where
  version := h.versionOf.ge
  kept k _ _ _ hx := (h.version k).trans hx

theorem SameCatalog.forward_iff {o₁ : String → Option Object} (h : SameCatalog site o o₁) :
    Forward site o o' ↔ Forward site o₁ o' := by
  constructor
  · intro hf
    refine ⟨h.versionOf ▸ hf.version, fun k hk hle x hx => ?_⟩
    rw [h.versionOf] at hle
    exact hf.kept k hk hle x ((h.version k).symm.trans hx)
  · intro hf
    refine ⟨h.versionOf ▸ hf.version, fun k hk hle x hx => ?_⟩
    rw [← h.versionOf] at hle
    exact hf.kept k hk hle x ((h.version k).trans hx)

theorem versionOf_update_json (o : String → Option Object) (k : Nat) (x : Option Object) :
    versionOf site (update o (site.key (.metadataJson k)) x) = versionOf site o := by
  unfold versionOf
  rw [update_of_ne (by simp)]

theorem versionOf_update_hint (o : String → Option Object) (k : Nat) :
    versionOf site (update o (site.key .versionHint) (some (.versionHint (some k)))) = k := by
  unfold versionOf
  rw [update_self]
  rfl

theorem loads_iff : Loads site w m ↔
    w.objects (site.key (.metadataJson (versionOf site w.objects))) = some (.metadata m) := by
  have hversion : versionOf site w.reliably.objects = versionOf site w.objects := rfl
  unfold Loads
  simp only [loadRawMetadata,run_bind,run_currentVersion,run_getObject,
    World.tick_faults,World.reliably_faults,World.tick_objects,World.reliably_objects,
    Bool.false_eq_true,if_false,Place.locate_path,hversion]
  cases w.objects (site.key (.metadataJson (versionOf site w.objects))) with
  | none => simp
  | some o => cases o <;> simp

theorem savedVersion_of_fault (h : w.faults 0 = true) : savedVersion site w = 1 := by
  rw [savedVersion,h,if_pos rfl]

theorem savedVersion_of_read (h : w.faults 0 = false) :
    savedVersion site w = versionOf site w.objects + 1 := by
  rw [savedVersion,h,if_neg Bool.false_ne_true]

theorem forward_saveMetadata_iff (hpos : 0 < versionOf site w.objects)
    (hnew : w.objects (site.key (.metadataJson 1)) ≠ some (.metadata m)) :
    Forward site w.objects ((saveMetadata site m).run w).2.objects ↔
      w.faults 0 = false ∨ w.faults 1 = true ∨
        w.objects (site.key (.metadataJson 1)) = none ∧
          (w.faults 2 = true ∨ versionOf site w.objects = 1) := by
  -- Where version 1 is written, nothing may have been there.
  have hfirst {o' : String → Option Object}
      (hone : o' (site.key (.metadataJson 1)) = some (.metadata m))
      (hf : Forward site w.objects o') : w.objects (site.key (.metadataJson 1)) = none := by
    by_contra hsome
    obtain ⟨x,hx⟩ := Option.ne_none_iff_exists'.1 hsome
    have hkept := hf.kept 1 Nat.one_pos hpos x hx
    rw [hone] at hkept
    exact hnew (hx.trans hkept.symm)
  have hother {k : Nat} {x : Object} (hnone : w.objects (site.key (.metadataJson 1)) = none)
      (hx : w.objects (site.key (.metadataJson k)) = some x) : k ≠ 1 := by
    rintro rfl
    rw [hnone] at hx
    cases hx
  rcases run_saveMetadata site m w with ⟨h₁,-,hobj⟩ | ⟨h₁,h₂,-,hobj⟩ | ⟨h₁,h₂,-,-,hobj⟩
  · rw [hobj]
    exact iff_of_true ⟨Nat.le_refl _, fun _ _ _ _ => id⟩ (.inr (.inl h₁))
  · have hversion : versionOf site ((saveMetadata site m).run w).2.objects =
        versionOf site w.objects := by rw [hobj,versionOf_update_json]
    cases hfault : w.faults 0 with
    | true =>
      rw [savedVersion_of_fault hfault] at hobj
      simp only [h₁,h₂,Bool.true_eq_false,Bool.false_eq_true,false_or,true_or,and_true]
      constructor
      · exact hfirst (by rw [hobj,update_self])
      · intro hnone
        refine ⟨hversion.ge, fun k _ _ x hx => ?_⟩
        rw [hobj,update_of_ne (by simpa using hother hnone hx),hx]
    | false =>
      have hsaved : savedVersion site w = versionOf site w.objects + 1 := savedVersion_of_read hfault
      refine iff_of_true ⟨hversion.ge, fun k _ hle x hx => ?_⟩ (.inl rfl)
      have hk : k ≠ savedVersion site w := by omega
      rw [hobj,update_of_ne (by simpa using hk),hx]
  · have hversion : versionOf site ((saveMetadata site m).run w).2.objects =
        savedVersion site w := by rw [hobj,versionOf_update_hint]
    cases hfault : w.faults 0 with
    | true =>
      -- The hint goes to 1, which is back unless it was there.
      rw [savedVersion_of_fault hfault] at hobj hversion
      simp only [h₁,h₂,Bool.true_eq_false,Bool.false_eq_true,false_or]
      constructor
      · intro hf
        refine ⟨hfirst ?_ hf, ?_⟩
        · rw [hobj,update_of_ne (by simp),update_self]
        · have hle := hf.version
          omega
      · rintro ⟨hnone,hone⟩
        refine ⟨by omega, fun k _ _ x hx => ?_⟩
        rw [hobj,update_of_ne (by simp),
          update_of_ne (by simpa using hother hnone hx),hx]
    | false =>
      have hsaved : savedVersion site w = versionOf site w.objects + 1 := savedVersion_of_read hfault
      refine iff_of_true ⟨by omega, fun k _ hle x hx => ?_⟩ (.inl rfl)
      have hk : k ≠ savedVersion site w := by omega
      rw [hobj,update_of_ne (by simp),update_of_ne (by simpa using hk),hx]

/-- After a save that kept the catalog going forward, the new metadata is loaded exactly when both
writes were made. -/
theorem loads_saveMetadata (h : TableState site w.objects)
    (hforward : Forward site w.objects ((saveMetadata site m).run w).2.objects)
    (hnew : w.objects (site.key (.metadataJson 1)) ≠ some (.metadata m)) :
    (w.faults 1 = false ∧ w.faults 2 = false ∧ Loads site ((saveMetadata site m).run w).2 m) ∨
    ((w.faults 1 = true ∨ w.faults 2 = true) ∧
      ∀ m', Loads site ((saveMetadata site m).run w).2 m' ↔ Loads site w m') := by
  have hcond := (forward_saveMetadata_iff h.pos hnew).1 hforward
  rcases run_saveMetadata site m w with ⟨h₁,-,hobj⟩ | ⟨h₁,h₂,-,hobj⟩ | ⟨h₁,h₂,-,-,hobj⟩
  · refine .inr ⟨.inl h₁, fun m' => ?_⟩
    rw [loads_iff,loads_iff,hobj]
  · refine .inr ⟨.inr h₂, fun m' => ?_⟩
    have hne : versionOf site w.objects ≠ savedVersion site w := by
      cases hfault : w.faults 0 with
      | true =>
        rw [savedVersion_of_fault hfault]
        simp only [hfault,h₁,Bool.true_eq_false,Bool.false_eq_true,false_or] at hcond
        exact h.version_ne_one hcond.1
      | false =>
        rw [savedVersion_of_read hfault]
        omega
    rw [loads_iff,loads_iff,hobj,versionOf_update_json,
      update_of_ne (by simpa using hne)]
  · refine .inl ⟨h₁,h₂,?_⟩
    rw [loads_iff,hobj,versionOf_update_hint,update_of_ne (by simp),
      update_self]

variable (site s nowMs) in
theorem touches_prepareCommit :
    (prepareCommit site s nowMs).Touches (commitKeys site s.snapshotId) :=
  readOnly_loadRawMetadata.touches.bind fun m =>
    (touches_buildCommit m).bind fun _ => touches_pure _

variable (site s nowMs) in
theorem sameCatalog_reachSave (w : Store) :
    SameCatalog site w.objects ((reachSave site s nowMs).run w).2.objects := by
  have hprepare (w₁ : Store) (hobj : w₁.objects = w.objects) :
      SameCatalog site w.objects ((prepareCommit site s nowMs).run w₁).2.objects := by
    have htouches := touches_prepareCommit site s nowMs w₁
    refine ⟨?_, fun k => ?_⟩
    · rw [htouches.objects _ (not_mem_commitKeys_of_ne (by simp [commitPaths])),hobj]
    · rw [htouches.objects _ (not_mem_commitKeys_of_ne (by simp [commitPaths])),hobj]
  simp only [reachSave,run_bind,run_enter,run_tryLock]
  cases (w.tick.setMutex true).faults 0 with
  | true => exact ⟨rfl, fun _ => rfl⟩
  | false =>
    cases (w.tick.setMutex true).locked (site.key .commitLock) with
    | true => exact ⟨rfl, fun _ => rfl⟩
    | false => exact hprepare _ rfl

theorem currentSnapshotId_of_reachSave (h : (reachSave site s nowMs).run w = (.ok m, w')) :
    m.currentSnapshotId = some s.snapshotId := by
  obtain ⟨_,w₁,-,h⟩ := run_bind_ok.1 h
  obtain ⟨held,w₂,-,h⟩ := run_bind_ok.1 h
  match held with
  | none => cases h
  | some false => cases h
  | some true =>
    obtain ⟨m₀,w₃,-,h⟩ := run_bind_ok.1 h
    obtain ⟨a,w₄,hbuild,h⟩ := run_bind_ok.1 h
    obtain ⟨stats,pstats,-,rfl,-⟩ := run_buildCommit_ok hbuild
    cases h
    exact IcebergMetadata.currentSnapshotId_applyCommit _ _

/-! The calls. -/

inductive CatalogCall where
  | commit (s : NewSnapshot) (nowMs : Int)
  | create (m : IcebergMetadata)

namespace CatalogCall

def program (site : Site) : CatalogCall → Program Unit
  | .commit s nowMs => do
    let _ ← commitSnapshot site s nowMs
    pure ()
  | .create m => createTable site m

/-- A commit brings an id that no published version has, a creation metadata that none of them is. -/
def Fresh (site : Site) (objects : String → Option Object) : CatalogCall → Prop
  | .commit s _ => ∀ k ≤ versionOf site objects, ∀ m,
      objects (site.key (.metadataJson k)) = some (.metadata m) →
        m.currentSnapshotId ≠ some s.snapshotId
  | .create m => ∀ k ≤ versionOf site objects,
      objects (site.key (.metadataJson k)) ≠ some (.metadata m)

/-- A commit that reports an error is not current; a creation leaves a table that is there. -/
def Reported (site : Site) (w : Store) : CatalogCall → Except AilakeError Unit → Store → Prop
  | .commit s _, result, w' => result.toBool = false →
      ∀ m, Loads site w' m → m.currentSnapshotId ≠ some s.snapshotId
  | .create _, _, w' => ∀ m, Loads site w m → Loads site w' m

/-- The calls that must not fail: when a commit saves its metadata, reading the hint, both writes
and the release of the lock; for a creation, reading the hint. -/
def Spared (site : Site) (w : Store) : CatalogCall → Prop
  | .commit s nowMs => ∀ m w₁, (reachSave site s nowMs).run w = (.ok m, w₁) →
      (w₁.faults 0 = false ∨ w₁.faults 1 = true ∨
        w₁.faults 2 = true ∧ w.objects (site.key (.metadataJson 1)) = none) ∧
      (w₁.faults 1 = true ∨ w₁.faults 2 = true ∨ w₁.faults 3 = false)
  | .create _ => versionOf site w.objects = 0 ∨ w.faults 0 = false ∨ w.faults 2 = true ∨
      (w.faults 1 = false ∨ w.objects (site.key (.metadataJson 1)) = none ∧
        (w.faults 3 = true ∨ versionOf site w.objects = 1)) ∧
      (w.faults 3 = true ∨ ∀ m, ¬ Loads site w m)

end CatalogCall

structure AllOrNothing (site : Site) (call : CatalogCall) (w : Store) : Prop where
  forward : Forward site w.objects ((call.program site).run w).2.objects
  reported : call.Reported site w ((call.program site).run w).1 ((call.program site).run w).2

variable (site s nowMs) in
theorem run_commit (w : Store) :
    ((CatalogCall.commit s nowMs).program site).run w =
      (((commitSnapshot site s nowMs).run w).1.map fun _ => (),
        ((commitSnapshot site s nowMs).run w).2) := by
  simp only [CatalogCall.program,run_bind]
  rcases (commitSnapshot site s nowMs).run w with ⟨e | id, w'⟩ <;> rfl

theorem CatalogCall.Fresh.loads (hfresh : (CatalogCall.commit s nowMs).Fresh site w.objects)
    (hsame : SameCatalog site w.objects w'.objects) (hloads : Loads site w' m) :
    m.currentSnapshotId ≠ some s.snapshotId := by
  rw [loads_iff,hsame.versionOf,hsame.version] at hloads
  exact hfresh _ (Nat.le_refl _) m hloads

theorem allOrNothing_commit_iff : AllOrNothing site (.commit s nowMs) w ↔
    Forward site w.objects ((commitSnapshot site s nowMs).run w).2.objects ∧
      (((commitSnapshot site s nowMs).run w).1.toBool = false →
        ∀ m, Loads site ((commitSnapshot site s nowMs).run w).2 m →
          m.currentSnapshotId ≠ some s.snapshotId) := by
  have hbool (r : Except AilakeError SnapshotId) : (r.map fun _ => ()).toBool = r.toBool := by
    cases r <;> rfl
  have hrun := run_commit site s nowMs w
  constructor
  · rintro ⟨hforward,hreported⟩
    rw [hrun] at hforward hreported
    exact ⟨hforward, fun hfalse => hreported ((hbool _).trans hfalse)⟩
  · rintro ⟨hforward,hreported⟩
    refine ⟨hrun ▸ hforward, ?_⟩
    rw [hrun]
    exact fun hfalse => hreported ((hbool _).symm.trans hfalse)

theorem toBool_commitSnapshot (hreach : (reachSave site s nowMs).run w = (.ok m, w₁))
    (h₁ : w₁.faults 1 = false) (h₂ : w₁.faults 2 = false) :
    ((commitSnapshot site s nowMs).run w).1.toBool = !w₁.faults 3 := by
  have hcommit := run_commitSnapshot site s nowMs w
  simp only [hreach] at hcommit
  rcases run_saveMetadata site m w₁ with ⟨h,-⟩ | ⟨-,h,-⟩ | ⟨-,-,hok,hfault,-⟩
  · rw [h₁] at h
    cases h
  · rw [h₂] at h
    cases h
  · rw [hcommit.2,hok,hfault,Bool.true_and]

/-- A commit comes to its save only on a table that can be loaded: with the hint unread it asks for
version 0. -/
theorem tableState_of_reachSave (hzero : w.objects (site.key (.metadataJson 0)) = none)
    (hreach : (reachSave site s nowMs).run w = (.ok m, w₁)) : TableState site w.objects := by
  obtain ⟨_,w₂,henter,hreach⟩ := run_bind_ok.1 hreach
  obtain ⟨held,w₃,hlock,hreach⟩ := run_bind_ok.1 hreach
  have hobj : w₃.objects = w.objects := by
    rw [run_enter] at henter
    rw [run_tryLock] at hlock
    cases henter
    cases hlock
    split <;> rfl
  match held with
  | none => cases hreach
  | some false => cases hreach
  | some true =>
    obtain ⟨m₀,w₄,hload,-⟩ := run_bind_ok.1 hreach
    simp only [loadRawMetadata,run_bind,run_currentVersion,run_getObject,
      World.tick_faults,World.tick_objects,Place.locate_path,hobj] at hload
    refine ⟨hzero,?_⟩
    cases hfault : w₃.faults 0 with
    | true => cases hget : w₃.faults 1 <;> simp [hfault,hget,hzero] at hload
    | false =>
      cases hget : w₃.faults 1 with
      | true => simp [hget] at hload
      | false =>
        simp only [hfault,hget,Nat.zero_add,Bool.false_eq_true,if_false] at hload
        rcases hmeta : w.objects (site.key (.metadataJson (versionOf site w.objects))) with _ | o
        · simp [hmeta] at hload
        · cases o <;> simp [hmeta] at hload ⊢

theorem commit_allOrNothing_of_saved (h : TableState site w.objects)
    (hfresh : (CatalogCall.commit s nowMs).Fresh site w.objects)
    (hreach : (reachSave site s nowMs).run w = (.ok m, w₁)) :
    AllOrNothing site (.commit s nowMs) w ↔
      (w₁.faults 0 = false ∨ w₁.faults 1 = true ∨
        w₁.faults 2 = true ∧ w.objects (site.key (.metadataJson 1)) = none) ∧
      (w₁.faults 1 = true ∨ w₁.faults 2 = true ∨ w₁.faults 3 = false) := by
  have hsame := sameCatalog_reachSave site s nowMs w
  have hcommit := run_commitSnapshot site s nowMs w
  rw [hreach] at hsame
  simp only [hreach] at hcommit
  have hstate := h.congr hsame
  have hcurrent := currentSnapshotId_of_reachSave hreach
  have hnew : w₁.objects (site.key (.metadataJson 1)) ≠ some (.metadata m) := by
    rw [hsame.version]
    exact fun hm => hfresh 1 h.pos m hm hcurrent
  have hforward : Forward site w₁.objects ((saveMetadata site m).run w₁).2.objects ↔
      w₁.faults 0 = false ∨ w₁.faults 1 = true ∨
        w₁.faults 2 = true ∧ w.objects (site.key (.metadataJson 1)) = none := by
    rw [forward_saveMetadata_iff hstate.pos hnew,hsame.version]
    have hone := fun hnone => h.version_ne_one hnone
    rw [hsame.versionOf]
    tauto
  rw [allOrNothing_commit_iff,hsame.forward_iff,hcommit.1,← hforward]
  refine and_congr_right fun hforw => ?_
  have hloads (m' : IcebergMetadata) : Loads site ((commitSnapshot site s nowMs).run w).2 m' ↔
      Loads site ((saveMetadata site m).run w₁).2 m' := by
    rw [loads_iff,loads_iff,hcommit.1]
  rcases loads_saveMetadata hstate hforw hnew with ⟨h₁,h₂,hload⟩ | ⟨hwrite,hkept⟩
  · -- The new metadata is loaded, so that the answer must not be an error.
    rw [toBool_commitSnapshot hreach h₁ h₂,h₁,h₂]
    constructor
    · intro hreported
      by_contra hfault
      refine hreported ?_ m ((hloads m).2 hload) hcurrent
      simpa using hfault
    · intro hfault hfault'
      simp only [Bool.false_eq_true,false_or] at hfault
      rw [hfault] at hfault'
      cases hfault'
  · refine iff_of_true (fun _ m' hm' => ?_) ?_
    · exact hfresh.loads hsame ((hkept m').1 ((hloads m').1 hm'))
    · exact hwrite.elim .inl fun h => .inr (.inl h)

theorem commit_allOrNothing_iff (hzero : w.objects (site.key (.metadataJson 0)) = none)
    (hfresh : (CatalogCall.commit s nowMs).Fresh site w.objects) :
    AllOrNothing site (.commit s nowMs) w ↔ (CatalogCall.commit s nowMs).Spared site w := by
  rw [CatalogCall.Spared]
  rcases hreach : (reachSave site s nowMs).run w with ⟨e | m, w₁⟩
  · have hsame := sameCatalog_reachSave site s nowMs w
    have hcommit := run_commitSnapshot site s nowMs w
    rw [hreach] at hsame
    simp only [hreach] at hcommit
    rw [← hcommit.2] at hsame
    refine iff_of_true (allOrNothing_commit_iff.2 ⟨hsame.forward,?_⟩) fun m w₂ hok => nomatch hok
    exact fun _ m hm => hfresh.loads hsame hm
  · rw [commit_allOrNothing_of_saved (tableState_of_reachSave hzero hreach) hfresh hreach]
    constructor
    · rintro hcond m₂ w₂ hok
      cases hok
      exact hcond
    · intro hspared
      exact hspared m w₁ rfl

variable (site m) in
theorem run_create (w : Store) :
    ((CatalogCall.create m).program site).run w =
      if w.faults 0 = true ∨ versionOf site w.objects = 0 then (saveMetadata site m).run w.tick
      else (.error (.catalog ("table " ++ site.tableNamespace ++ "." ++ site.tableName ++
        " already exists")), w.tick) := by
  simp only [CatalogCall.program,createTable,run_bind,run_currentVersion]
  cases w.faults 0 with
  | true => rfl
  | false =>
    by_cases hpos : versionOf site w.objects = 0
    · simp [hpos]
    · simp [hpos,Nat.pos_of_ne_zero hpos]

theorem create_allOrNothing_of_fault (hzero : w.objects (site.key (.metadataJson 0)) = none)
    (hfresh : (CatalogCall.create m).Fresh site w.objects)
    (hpos : 0 < versionOf site w.objects) (hfault : w.faults 0 = true) :
    AllOrNothing site (.create m) w ↔
      (w.faults 1 = false ∨ w.faults 2 = true ∨ w.objects (site.key (.metadataJson 1)) = none ∧
        (w.faults 3 = true ∨ versionOf site w.objects = 1)) ∧
      (w.faults 2 = true ∨ w.faults 3 = true ∨ ∀ m, ¬ Loads site w m) := by
  have hrun := run_create site m w
  rw [if_pos (.inl hfault)] at hrun
  have hnew : w.tick.objects (site.key (.metadataJson 1)) ≠ some (.metadata m) := hfresh 1 hpos
  have hforward : Forward site w.objects ((saveMetadata site m).run w.tick).2.objects ↔
      w.faults 1 = false ∨ w.faults 2 = true ∨ w.objects (site.key (.metadataJson 1)) = none ∧
        (w.faults 3 = true ∨ versionOf site w.objects = 1) :=
    forward_saveMetadata_iff (w := w.tick) hpos hnew
  have hsplit : AllOrNothing site (.create m) w ↔
      Forward site w.objects ((saveMetadata site m).run w.tick).2.objects ∧
        ∀ m', Loads site w m' → Loads site ((saveMetadata site m).run w.tick).2 m' := by
    constructor
    · rintro ⟨hforw,hreported⟩
      rw [hrun] at hforw hreported
      exact ⟨hforw,hreported⟩
    · rintro ⟨hforw,hreported⟩
      exact ⟨hrun ▸ hforw, hrun ▸ hreported⟩
  rw [hsplit,← hforward]
  refine and_congr_right fun hforw => ?_
  by_cases hexists : ∃ m₀, Loads site w m₀
  · obtain ⟨m₀,hm₀⟩ := hexists
    have hstate : TableState site w.tick.objects := ⟨hzero, m₀, loads_iff.1 hm₀⟩
    rcases loads_saveMetadata hstate hforw hnew with ⟨h₁,h₂,hload⟩ | ⟨hwrite,hkept⟩
    · rw [World.tick_faults] at h₁ h₂
      refine iff_of_false (fun hreported => ?_) ?_
      · have hboth := (loads_iff.1 (hreported m₀ hm₀)).symm.trans (loads_iff.1 hload)
        cases hboth
        exact hfresh _ (Nat.le_refl _) (loads_iff.1 hm₀)
      · rintro (h | h | h)
        · rw [h₁] at h
          cases h
        · rw [h₂] at h
          cases h
        · exact h m₀ hm₀
    · refine iff_of_true (fun m' hm' => (hkept m').2 hm') ?_
      exact hwrite.elim .inl fun h => .inr (.inl h)
  · exact iff_of_true (fun m' hm' => absurd ⟨m',hm'⟩ hexists)
      (.inr (.inr fun m' hm' => hexists ⟨m',hm'⟩))

theorem create_allOrNothing_iff (hzero : w.objects (site.key (.metadataJson 0)) = none)
    (hfresh : (CatalogCall.create m).Fresh site w.objects) :
    AllOrNothing site (.create m) w ↔ (CatalogCall.create m).Spared site w := by
  rw [CatalogCall.Spared]
  rcases Nat.eq_zero_or_pos (versionOf site w.objects) with hnone | hpos
  · refine iff_of_true ⟨⟨by omega, fun k hk hle => by omega⟩, fun m' hm' => ?_⟩ (.inl hnone)
    rw [loads_iff,hnone,hzero] at hm'
    cases hm'
  cases hfault : w.faults 0 with
  | false =>
    have hrun := run_create site m w
    rw [if_neg (by simp [hfault,hpos.ne'])] at hrun
    refine iff_of_true ⟨?_,?_⟩ (.inr (.inl rfl))
    · rw [hrun]
      exact SameCatalog.forward ⟨rfl, fun _ => rfl⟩
    · rw [hrun]
      exact fun m' hm' => loads_iff.2 (loads_iff.1 hm')
  | true =>
    rw [create_allOrNothing_of_fault hzero hfresh hpos hfault]
    have hpos' := hpos.ne'
    simp only [hpos',Bool.true_eq_false,false_or]
    tauto

end AiLake
