import AiLake.PointerCatalog
import AiLake.TableView

/-! The names of a table's metadata objects: the text after the last slash and the root before it can
be read off them. -/
namespace AiLake

open StoreProgram

def metadataName (root x : String) : String := root ++ "/metadata/" ++ x

theorem append_slash_inj {l l' x y : List Char} (hx : '/' ∉ x) (hy : '/' ∉ y)
    (h : l ++ '/' :: x = l' ++ '/' :: y) : l = l' ∧ x = y := by
  rcases List.append_eq_append_iff.1 h with ⟨d,hl,hd⟩ | ⟨d,hl,hd⟩
  · cases d with
    | nil => simp_all
    | cons ch d =>
      have hmem : '/' ∈ x := by
        have hd' := (List.cons.inj hd).2
        rw [hd']
        simp
      exact absurd hmem hx
  · cases d with
    | nil => simp_all
    | cons ch d =>
      have hmem : '/' ∈ y := by
        have hd' := (List.cons.inj hd).2
        rw [hd']
        simp
      exact absurd hmem hy

theorem metadataName_inj {r r' x y : String} (hx : '/' ∉ x.toList) (hy : '/' ∉ y.toList)
    (h : metadataName r x = metadataName r' y) : r = r' ∧ x = y := by
  have hsplit (r x : String) : (metadataName r x).toList =
      (r.toList ++ "/metadata".toList) ++ '/' :: x.toList := by
    simp [metadataName]
  have hlist := congrArg String.toList h
  rw [hsplit,hsplit] at hlist
  obtain ⟨hroot,hname⟩ := append_slash_inj hx hy hlist
  exact ⟨String.toList_inj.1 (List.append_cancel_right hroot), String.toList_inj.1 hname⟩

theorem slashFree_repr_nat (n : Nat) : '/' ∉ n.repr.toList := by
  intro h
  rw [Nat.toList_repr] at h
  exact absurd (Nat.isDigit_of_mem_toDigits (by decide) (by decide) h) (by decide)

theorem slashFree_repr_int (n : Int) : '/' ∉ n.repr.toList := by
  cases n with
  | ofNat m => exact slashFree_repr_nat m
  | negSucc m => simpa [Int.repr] using slashFree_repr_nat (m + 1)

theorem slashFree_name (p : MetaPath) : '/' ∉ p.name.toList := by
  cases p with
  | versionHint => decide
  | commitLock => decide
  | metadataJson v => simpa [MetaPath.name.eq_def] using slashFree_repr_nat v
  | manifest id => simp [MetaPath.name.eq_def,slashFree_repr_int]
  | deleteManifest id => simp [MetaPath.name.eq_def,slashFree_repr_int]
  | manifestList id => simp [MetaPath.name.eq_def,slashFree_repr_int]
  | statistics id => simp [MetaPath.name.eq_def,slashFree_repr_int]
  | partitionStatistics id => simp [MetaPath.name.eq_def,slashFree_repr_int]
  | deletionVector id => simp [MetaPath.name.eq_def,slashFree_repr_int]
  | equalityDelete id => simp [MetaPath.name.eq_def,slashFree_repr_int]

/-- All that a table keeps in its metadata directory. -/
def namesOf (place : Place) : Set String :=
  {k | ∃ x : String, '/' ∉ x.toList ∧ k = place.locate (metadataName place.root x)}

/-- The store keeps the metadata objects of all roots apart. -/
def KeepsApart (locate : String → String) : Prop :=
  Set.InjOn locate {n | ∃ root x, n = metadataName root x}

variable {place : Place}

theorem key_mem_namesOf (p : MetaPath) : place.key p ∈ namesOf place := ⟨p.name, slashFree_name p, rfl⟩

theorem metadataPath_mem_namesOf (e : Draw) :
    place.locate (metadataPath place e.uuid) ∈ namesOf place := by
  refine ⟨e.uuid ++ ".metadata.json", ?_, rfl⟩
  simp [e.slashFree]

theorem key_inj_of_keepsApart (hlocate : KeepsApart place.locate) {p q : MetaPath} :
    place.key p = place.key q ↔ p = q := by
  constructor
  · intro h
    exact MetaPath.name_injective (metadataName_inj (slashFree_name p) (slashFree_name q)
      (hlocate ⟨_,_,rfl⟩ ⟨_,_,rfl⟩ h)).2
  · rintro rfl
    rfl

theorem commitPaths_inj {p : MetaPath} {id id' : SnapshotId} (h : p ∈ commitPaths id)
    (h' : p ∈ commitPaths id') : id = id' := by
  simp only [commitPaths,List.mem_cons,List.not_mem_nil,or_false] at h h'
  rcases h with rfl | rfl | rfl | rfl | rfl <;> simpa using h'

theorem metadataPath_ne_key (hlocate : KeepsApart place.locate) (e : Draw) {p : MetaPath}
    (id : SnapshotId) (hp : p ∈ commitPaths id) :
    place.locate (metadataPath place e.uuid) ≠ place.key p := by
  have hlast (x : String) : ((x ++ ".metadata.json").toList.reverse).take 2 = ['n','o'] := by simp
  have hname : (p.name.toList.reverse).take 2 ≠ ['n','o'] := by
    simp only [commitPaths,List.mem_cons,List.not_mem_nil,or_false] at hp
    rcases hp with rfl | rfl | rfl | rfl | rfl <;> simp [MetaPath.name.eq_def]
  intro h
  have hslash : '/' ∉ (e.uuid ++ ".metadata.json").toList := by simp [e.slashFree]
  have heq := (metadataName_inj hslash (slashFree_name p) (hlocate ⟨_,_,rfl⟩ ⟨_,_,rfl⟩ h)).2
  rw [← heq,hlast] at hname
  exact hname rfl

theorem namesOf_disjoint {a b : Place} (hlocate : KeepsApart a.locate) (hsame : b.locate = a.locate)
    (hroot : a.root ≠ b.root) : Disjoint (namesOf a) (namesOf b) := by
  refine Set.disjoint_left.2 ?_
  rintro k ⟨x,hx,rfl⟩ ⟨y,hy,heq⟩
  rw [hsame] at heq
  exact hroot (metadataName_inj hx hy (hlocate ⟨_,_,rfl⟩ ⟨_,_,rfl⟩ heq)).1

end AiLake
