import AiLake.PointerCatalog
import AiLake.TableFootprint

/-! What the calls of a pointer catalog touch: the row of their table, the objects that its metadata
leads to, the files of their snapshot, and new metadata. -/
namespace AiLake

open StoreProgram PointerCatalog

variable {Key Guard : Type} {c : PointerCatalog Key Guard} {place : Place} {W S : Set String}
  {located : Guard → Option String} {α β : Type}

/-- The names that a call knows follow its answers. It writes into `W`, and new metadata elsewhere;
where guards are locations, `located` is the one. -/
def pointerTracking (c : PointerCatalog Key Guard) (place : Place)
    (located : Guard → Option String) (W : Set String) :
    Tracking (pointerCalls Key Guard) (Set String) where
  track S op r := match op, r with
    | .store op, r => Footprint.track S op r
    | .putNew _ _, some location => insert (place.locate location) S
    | .putNew _ _, none | .now, _ | .select _, _ | .insert _ _, _ | .update _ _ _, _ => S
  allows S op := match op with
    | .store op => (tableFootprint place W ∅).Allows S op
    | .now => True
    | .putNew p m => p = place ∧ objectRefs place (.metadata m) ⊆ S
    | .select key => key = c.key place
    | .insert key location => key = c.key place ∧ place.locate location ∈ S
    | .update key location seen => key = c.key place ∧ place.locate location ∈ S ∧
        ∀ l, located seen = some l → place.locate l ∈ S
  expects S op r := match op, r with
    | .store op, r => (tableFootprint place W ∅).Expects S op r
    | .select _, r => ∀ row, r = some row → place.locate row.1 ∈ S ∧
        ∀ l, located row.2 = some l → place.locate l ∈ S
    | .now, _ | .putNew _ _, _ | .insert _ _, _ | .update _ _ _, _ => True

/-- The script keeps to its table from the names `S` on, and returns what `Q` says. -/
def PointerCatalog.Keeps (c : PointerCatalog Key Guard) (place : Place)
    (located : Guard → Option String) (W S : Set String) (p : PointerScript Key Guard α)
    (Q : α → Set String → Prop) : Prop :=
  p.Ensures (pointerTracking c place located W) S fun r S' => ∀ a, r = .ok a → S ⊆ S' ∧ Q a S'

namespace PointerCatalog

variable {Q : α → Set String → Prop}

theorem keeps_pure {a : α} (h : Q a S) : c.Keeps place located W S (pure a) Q := by
  rintro b ⟨⟩
  exact ⟨subset_rfl,h⟩

theorem keeps_fail (e : AilakeError) : c.Keeps place located W S (.fail e) Q := fun _ h => nomatch h

theorem Keeps.bind {p : PointerScript Key Guard α} {f : α → PointerScript Key Guard β}
    {Q' : β → Set String → Prop} (hp : c.Keeps place located W S p Q)
    (hf : ∀ a S', S ⊆ S' → Q a S' → c.Keeps place located W S' (f a) Q') :
    c.Keeps place located W S (p >>= f) Q' := by
  refine Script.ensures_bind.2 (hp.mono fun r S' hr => ?_)
  cases r with
  | error e => exact fun _ h => nomatch h
  | ok a =>
    obtain ⟨hS',ha⟩ := hr a rfl
    refine (hf a S' hS' ha).mono fun r S'' hr b hb => ?_
    exact ⟨hS'.trans (hr b hb).1, (hr b hb).2⟩

theorem keeps_onStore {p : Program α} (h : p.Within (tableFootprint place W ∅) S Q) :
    c.Keeps place located W S (onStore p) Q := by
  induction p generalizing S with
  | done a => exact keeps_pure h
  | fail e => exact keeps_fail e
  | call op next ih =>
    refine ⟨h.1, fun r hr => (ih r (h.2 r hr)).mono fun r' S' hr' a ha => ?_⟩
    exact ⟨(Footprint.subset_track S op r).trans (hr' a ha).1, (hr' a ha).2⟩

theorem keeps_now : c.Keeps place located W S (call .now) fun _ _ => True :=
  ⟨trivial, fun r _ => keeps_pure (a := r) trivial⟩

theorem keeps_select : c.Keeps place located W S (call (.select (c.key place)))
    fun r S' => ∀ row, r = some row → place.locate row.1 ∈ S' ∧
      ∀ l, located row.2 = some l → place.locate l ∈ S' :=
  ⟨rfl, fun r hr => keeps_pure (a := r) hr⟩

theorem keeps_putNew {m : IcebergMetadata} (hm : objectRefs place (.metadata m) ⊆ S) :
    c.Keeps place located W S (call (.putNew place m))
      fun r S' => ∀ location, r = some location → place.locate location ∈ S' := by
  refine ⟨⟨rfl,hm⟩, fun r _ => ?_⟩
  rintro a ⟨⟩
  cases r with
  | none => exact ⟨subset_rfl, fun _ h => nomatch h⟩
  | some location =>
    refine ⟨Set.subset_insert _ S, ?_⟩
    rintro l ⟨⟩
    exact Set.mem_insert _ S

theorem keeps_insert {location : String} (h : place.locate location ∈ S) :
    c.Keeps place located W S (call (.insert (c.key place) location)) fun _ _ => True :=
  ⟨⟨rfl,h⟩, fun r _ => keeps_pure (a := r) trivial⟩

theorem keeps_update {location : String} {guard : Guard} (h : place.locate location ∈ S)
    (hguard : ∀ l, located guard = some l → place.locate l ∈ S) :
    c.Keeps place located W S (call (.update (c.key place) location guard)) fun _ _ => True :=
  ⟨⟨rfl,h,hguard⟩, fun r _ => keeps_pure (a := r) trivial⟩

theorem keeps_getMetadataLocation :
    c.Keeps place located W S (c.getMetadataLocation place) fun row S' => place.locate row.1 ∈ S' ∧
      ∀ l, located row.2 = some l → place.locate l ∈ S' := by
  refine keeps_select.bind fun r S' _ hr => ?_
  cases r with
  | none => exact keeps_fail _
  | some row => exact keeps_pure (hr row rfl)

theorem within_loadIcebergMetadata {L : Set String} {location : String}
    (h : place.locate location ∈ S) :
    (loadIcebergMetadata place location).Within (tableFootprint place W L) S
      fun m S' => objectRefs place (.metadata m) ⊆ S' := by
  refine (within_getObject h).bind fun o S' _ ho => ?_
  split
  · exact Prog.within_pure (ho.1 ▸ ho.2)
  · exact Prog.within_fail _

theorem keeps_loadIcebergMetadata {location : String} (h : place.locate location ∈ S) :
    c.Keeps place located W S (onStore (loadIcebergMetadata place location))
      fun m S' => objectRefs place (.metadata m) ⊆ S' := keeps_onStore (within_loadIcebergMetadata h)

theorem keeps_createTable (props : TableProperties) :
    c.Keeps place located W S (c.createTable place props) fun _ _ => True := by
  refine keeps_now.bind fun nowMs S₁ _ _ => ?_
  have hrefs : objectRefs place (.metadata (props.metadata place.root nowMs)) ⊆ S₁ := by
    rintro k ⟨snap,hsnap,-⟩
    cases hsnap
  refine (keeps_putNew hrefs).bind fun r S₂ _ hr => ?_
  cases r with
  | none => exact keeps_fail _
  | some location =>
    refine (keeps_insert (hr location rfl)).bind fun inserted S₃ _ _ => ?_
    cases inserted with
    | false => exact keeps_fail _
    | true => exact keeps_pure trivial

theorem keeps_listFiles (id : Option SnapshotId) :
    c.Keeps place located W S (c.listFiles place id) fun _ _ => True :=
  keeps_getMetadataLocation.bind fun _ _ _ hrow => (keeps_loadIcebergMetadata hrow.1).bind
    fun _ _ _ hm => keeps_onStore (within_listFilesFromMetadata hm)

/-- A change that can be swapped in: what it makes of metadata refers only to what is known. -/
def Changes (c : PointerCatalog Key Guard) (place : Place) (located : Guard → Option String)
    (W : Set String)
    (change : IcebergMetadata → PointerScript Key Guard (IcebergMetadata × α)) : Prop :=
  ∀ m S, objectRefs place (.metadata m) ⊆ S →
    c.Keeps place located W S (change m) fun changed S' => objectRefs place (.metadata changed.1) ⊆ S'

theorem keeps_swapAttempt {change : IcebergMetadata → PointerScript Key Guard (IcebergMetadata × α)}
    (h : c.Changes place located W change) :
    c.Keeps place located W S (c.swapAttempt place change) fun _ _ => True := by
  refine keeps_getMetadataLocation.bind fun row S₁ _ hrow => ?_
  refine (keeps_loadIcebergMetadata hrow.1).bind fun m S₂ hS₂ hm => ?_
  refine (h m S₂ hm).bind fun changed S₃ hS₃ hchanged => ?_
  refine (keeps_putNew hchanged).bind fun r S₄ hS₄ hr => ?_
  cases r with
  | none => exact keeps_fail _
  | some location =>
    have hguard (l : String) (hl : located row.2 = some l) : place.locate l ∈ S₄ :=
      hS₄ (hS₃ (hS₂ (hrow.2 l hl)))
    refine (keeps_update (hr location rfl) hguard).bind fun swapped S₅ _ _ => ?_
    cases swapped <;> exact keeps_pure trivial

theorem keeps_swapLoop {name : String}
    {change : IcebergMetadata → PointerScript Key Guard (IcebergMetadata × α)}
    (h : c.Changes place located W change) (n : Nat) :
    c.Keeps place located W S (c.swapLoop place name change n) fun _ _ => True := by
  induction n generalizing S with
  | zero => exact keeps_fail _
  | succ n ih =>
    refine (keeps_swapAttempt h).bind fun r S' _ _ => ?_
    cases r with
    | none => exact ih
    | some a => exact keeps_pure trivial

theorem changes_commit {s : NewSnapshot} (hW : ∀ p ∈ commitPaths s.snapshotId, place.key p ∈ W) :
    c.Changes place located W (commitChange place s) := by
  intro m S hm
  refine keeps_now.bind fun nowMs S₁ hS₁ _ => ?_
  refine (keeps_onStore (within_buildCommit (hm.trans hS₁) hW)).bind fun a S₂ _ ha => ?_
  exact keeps_pure ha

theorem changes_evolve (e : SchemaEvolution) : c.Changes place located W (evolveChange e) := by
  intro m S hm
  refine keeps_now.bind fun nowMs S₁ hS₁ _ => ?_
  cases hevolved : m.evolved e nowMs with
  | none => exact keeps_fail _
  | some m' =>
    obtain ⟨current,-,rfl⟩ := Option.map_eq_some_iff.1 hevolved
    exact keeps_pure (hm.trans hS₁)

end PointerCatalog

/-! What a table shows. -/

section Reading

variable [DecidableEq Key] [DecidableEq Guard]

def PointerWorld.reliably (w : PointerWorld Key Guard) : PointerWorld Key Guard :=
  { w with store := w.store.reliably }

structure PointerUnchanged (c : PointerCatalog Key Guard) (place : Place)
    (w w' : PointerWorld Key Guard) : Prop where
  load : ∀ e, ((c.loadTable place).run c.perform e w'.reliably).1 =
    ((c.loadTable place).run c.perform e w.reliably).1
  list : ∀ e id, ((c.listFiles place id).run c.perform e w'.reliably).1 =
    ((c.listFiles place id).run c.perform e w.reliably).1

theorem run_onStore (p : Program α) (e : Draw) (w : PointerWorld Key Guard) :
    (onStore p).run c.perform e w = ((p.run w.store).1, { w with store := (p.run w.store).2 }) := by
  induction p generalizing w with
  | done a => rfl
  | fail err => rfl
  | call op next ih => exact ih _ _

omit [DecidableEq Key] [DecidableEq Guard] in
theorem onStore_bind (p : Program α) (f : α → Program β) :
    (onStore (p >>= f) : PointerScript Key Guard β) = onStore p >>= fun a => onStore (f a) := by
  induction p with
  | done a => rfl
  | fail err => rfl
  | call op next ih => exact congrArg (Script.call _) (funext ih)

theorem run_reading (p : String → Program α) (e : Draw) (w : PointerWorld Key Guard) :
    ((do let row ← c.getMetadataLocation place; onStore (p row.1)).run c.perform e w).1 =
      match w.rows (c.key place) with
      | none => .error (c.notFound place)
      | some row => ((p row.1).run w.store).1 := by
  have hrow : (c.getMetadataLocation place).run c.perform e w =
      (match w.rows (c.key place) with
        | none => .error (c.notFound place)
        | some row => .ok row, w) := by
    simp only [getMetadataLocation,PointerCatalog.call,bind,Script.bind,Script.run,
      PointerCatalog.perform]
    cases w.rows (c.key place) <;> rfl
  rw [Script.run_bind,hrow]
  cases w.rows (c.key place) with
  | none => rfl
  | some row =>
    change ((onStore (p row.1)).run c.perform e w).1 = _
    rw [run_onStore]

theorem run_reading_congr {p : String → Program α} {w w' : PointerWorld Key Guard} (e : Draw)
    {F : Footprint String Object} (hclosed : F.Closed S w.store.objects)
    (hloc : ∀ row, w.rows (c.key place) = some row → place.locate row.1 ∈ S)
    (hrow : w'.rows (c.key place) = w.rows (c.key place))
    (hagree : ∀ k ∈ S, w'.store.objects k = w.store.objects k)
    (hread : ∀ location, (p location).ReadOnly)
    (hwithin : ∀ location, place.locate location ∈ S → (p location).Within F S fun _ _ => True) :
    ((do let row ← c.getMetadataLocation place; onStore (p row.1)).run c.perform e w'.reliably).1 =
      ((do let row ← c.getMetadataLocation place; onStore (p row.1)).run c.perform e w.reliably).1 := by
  rw [run_reading,run_reading]
  change (match w'.rows _ with | none => _ | some row => _) =
    (match w.rows _ with | none => _ | some row => _)
  rw [hrow]
  cases hlocation : w.rows (c.key place) with
  | none => rfl
  | some row =>
    exact (hwithin row.1 (hloc row hlocation)).run_congr (hread row.1) hclosed rfl hagree

theorem readOnly_loadIcebergMetadata (location : String) :
    (loadIcebergMetadata place location).ReadOnly := by
  refine (readOnly_getObject _).bind fun o => ?_
  split
  · exact Prog.readOnly_pure _
  · trivial

theorem pointerUnchanged_of_agree {w w' : PointerWorld Key Guard}
    (hclosed : (tableFootprint place W ∅).Closed S w.store.objects)
    (hloc : ∀ row, w.rows (c.key place) = some row → place.locate row.1 ∈ S)
    (hrow : w'.rows (c.key place) = w.rows (c.key place))
    (hagree : ∀ k ∈ S, w'.store.objects k = w.store.objects k) : PointerUnchanged c place w w' where
  load e := by
    have hreading := run_reading_congr (p := fun location => do
        let m ← loadIcebergMetadata place location
        pure m.toTableMetadata) e hclosed hloc hrow hagree
      (fun location => (readOnly_loadIcebergMetadata location).bind fun _ => Prog.readOnly_pure _)
      fun location h => (within_loadIcebergMetadata h).bind fun _ _ _ _ => Prog.within_pure trivial
    simp only [onStore_bind] at hreading
    exact hreading
  list e id := by
    have hreading := run_reading_congr (p := fun location => do
        let m ← loadIcebergMetadata place location
        listFilesFromMetadata place m id) e hclosed hloc hrow hagree
      (fun location => (readOnly_loadIcebergMetadata location).bind
        fun m => readOnly_listFilesFromMetadata m id)
      fun location h => (within_loadIcebergMetadata h).bind
        fun _ _ _ hm => within_listFilesFromMetadata hm
    simp only [onStore_bind] at hreading
    exact hreading

end Reading
end AiLake
