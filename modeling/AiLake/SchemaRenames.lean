import AiLake.FieldIds
import AiLake.Listing

/-! `evolve_schema` as a renaming of columns: one rename after another on what the earlier ones
left, then the new columns behind. -/
namespace AiLake

open List

/-- The name that a simultaneous renaming gives. -/
def targetName (renames : List RenameColumnRequest) (name : String) : String :=
  ((renames.find? fun r => r.oldName = name).map (·.newName)).getD name

/-- What an evolution is to make of the fields: each keeps its place and id, every rename is carried
out as asked for, and requests that name no column or leave a name to two do not come this far. -/
structure EvolvedRight (e : SchemaEvolution) (old new : List IcebergField) : Prop where
  distinct : (new.map (·.name)).Nodup
  known : ∀ r ∈ e.renames, r.oldName ∈ old.map (·.name)
  renamed : ∀ (i : Nat) (f : IcebergField), old[i]? = some f →
    ∃ g : IcebergField, new[i]? = some g ∧ g.id = f.id ∧
      (∀ r ∈ e.renames, r.oldName = f.name → g.name = r.newName) ∧
      (f.name ∉ e.renames.map (·.oldName) → g.name = f.name)

/-- When it does: the columns are there, none is renamed in two ways, no rename meets the result of
an earlier one, and the new names are distinct. -/
structure SchemaEvolution.Simultaneous (e : SchemaEvolution) (names : List String) : Prop where
  known : ∀ r ∈ e.renames, r.oldName ∈ names
  agree : ∀ r ∈ e.renames, ∀ r' ∈ e.renames, r.oldName = r'.oldName → r.newName = r'.newName
  unchained : e.renames.Pairwise fun r r' => r.newName = r'.oldName → r'.newName = r'.oldName
  distinct : (names.map (targetName e.renames) ++ e.adds.map (·.name)).Nodup

section Names

variable {renames : List RenameColumnRequest} {x y : String}

theorem renamedName_cons (r : RenameColumnRequest) (rest : List RenameColumnRequest) (x : String) :
    renamedName (r :: rest) x = renamedName rest (if x = r.oldName then r.newName else x) := rfl

theorem renamedName_of_unnamed (h : ∀ r ∈ renames, r.oldName = x → r.newName = x) :
    renamedName renames x = x := by
  induction renames with
  | nil => rfl
  | cons r rest ih =>
    have hstep : (if x = r.oldName then r.newName else x) = x := by
      split
      next hx => exact h r mem_cons_self hx.symm
      next => rfl
    rw [renamedName_cons,hstep]
    exact ih fun s hs => h s (mem_cons_of_mem r hs)

theorem renamedName_of_named (hex : ∃ r ∈ renames, r.oldName = x)
    (hagree : ∀ r ∈ renames, r.oldName = x → r.newName = y)
    (hlater : renames.Pairwise fun r r' => r.oldName = x → r'.oldName = y → r'.newName = y) :
    renamedName renames x = y := by
  induction renames with
  | nil =>
    obtain ⟨r,hr,-⟩ := hex
    cases hr
  | cons r rest ih =>
    obtain ⟨hhead,htail⟩ := pairwise_cons.1 hlater
    rw [renamedName_cons]
    by_cases hx : x = r.oldName
    · rw [if_pos hx,hagree r mem_cons_self hx.symm]
      exact renamedName_of_unnamed fun s hs => hhead s hs hx.symm
    · obtain ⟨s,hs,hold⟩ := hex
      have hmem : s ∈ rest := (mem_cons.1 hs).resolve_left fun h => hx (h ▸ hold.symm)
      rw [if_neg hx]
      exact ih ⟨s,hmem,hold⟩ (fun t ht => hagree t (mem_cons_of_mem r ht)) htail

theorem targetName_of_named {r : RenameColumnRequest} (hr : r ∈ renames)
    (hagree : ∀ r' ∈ renames, r'.oldName = r.oldName → r'.newName = r.newName) :
    targetName renames r.oldName = r.newName := by
  have hsome : (renames.find? fun s => s.oldName = r.oldName).isSome :=
    find?_isSome.2 ⟨r, hr, by simp⟩
  obtain ⟨s,hs⟩ := Option.isSome_iff_exists.1 hsome
  rw [targetName,hs]
  exact hagree s (mem_of_find?_eq_some hs) (by simpa using find?_some hs)

theorem targetName_of_unnamed (h : x ∉ renames.map (·.oldName)) : targetName renames x = x := by
  have hnone : (renames.find? fun r => r.oldName = x) = none := by
    refine find?_eq_none.2 fun r hr hx => h ?_
    exact mem_map.2 ⟨r, hr, by simpa using hx⟩
  rw [targetName,hnone]
  rfl

theorem targetName_eq_renamedName
    (h : ∀ r ∈ renames, renamedName renames r.oldName = r.newName) (x : String) :
    targetName renames x = renamedName renames x := by
  by_cases hx : x ∈ renames.map (·.oldName)
  · obtain ⟨r,hr,rfl⟩ := mem_map.1 hx
    rw [h r hr]
    refine targetName_of_named hr fun s hs hold => ?_
    rw [← h r hr,← h s hs,hold]
  · rw [targetName_of_unnamed hx,renamedName_of_unnamed]
    exact fun r hr hold => absurd (mem_map.2 ⟨r,hr,hold⟩) hx

/-- Renames that come out as asked for, on distinct names, do not meet each other's results: a new
name that is a column's would leave this name to two columns. -/
theorem unchained_of_renamed {N : String → Prop} (hknown : ∀ r ∈ renames, N r.oldName)
    (hnamed : ∀ r ∈ renames, renamedName renames r.oldName = r.newName)
    (hinj : ∀ x y, N x → N y → renamedName renames x = renamedName renames y → x = y) :
    renames.Pairwise fun r r' => r.newName = r'.oldName → r'.newName = r'.oldName := by
  induction renames generalizing N with
  | nil => exact .nil
  | cons r rest ih =>
    have hr := hnamed r mem_cons_self
    rw [pairwise_cons]
    by_cases hsame : r.newName = r.oldName
    · have hstep : ∀ x, renamedName (r :: rest) x = renamedName rest x := by
        intro x
        rw [renamedName_cons]
        split
        next hx => rw [hsame,hx]
        next => rfl
      refine ⟨fun s hs hold => ?_, ih (fun s hs => hknown s (mem_cons_of_mem r hs)) ?_ ?_⟩
      · rw [← hnamed s (mem_cons_of_mem r hs),← hold,hsame,hr,hsame]
      · exact fun s hs => hstep s.oldName ▸ hnamed s (mem_cons_of_mem r hs)
      · intro x y hx hy hxy
        exact hinj x y hx hy (by rw [hstep,hstep,hxy])
    · have hnew : ¬N r.newName := by
        intro hN
        refine hsame (hinj _ _ hN (hknown r mem_cons_self) ?_)
        rw [renamedName_cons,renamedName_cons,if_neg hsame,if_pos rfl]
      have hunused : ∀ s ∈ rest, s.oldName ≠ r.newName :=
        fun s hs hold => hnew (hold ▸ hknown s (mem_cons_of_mem r hs))
      refine ⟨fun s hs hold => absurd hold.symm (hunused s hs), ?_⟩
      -- the renamed column counts for the rest only if it is named there once more
      have hrest : ∀ x, (x = r.oldName → ∃ s ∈ rest, s.oldName = r.oldName) →
          renamedName rest x = renamedName (r :: rest) x := by
        intro x hx
        rw [renamedName_cons]
        split
        next hold =>
          rw [renamedName_of_unnamed fun s hs h => absurd h (hunused s hs),hold]
          refine renamedName_of_named (hx hold) (fun s hs h => ?_) ?_
          · rw [← hnamed s (mem_cons_of_mem r hs),h,hr]
          · exact pairwise_of_forall_mem_list fun _ _ s hs _ h => absurd h (hunused s hs)
        next => rfl
      refine @ih (fun x => N x ∧ (x = r.oldName → ∃ s ∈ rest, s.oldName = r.oldName))
        (fun s hs => ⟨hknown s (mem_cons_of_mem r hs), fun h => ⟨s,hs,h⟩⟩) ?_ ?_
      · intro s hs
        rw [hrest _ fun h => ⟨s,hs,h⟩]
        exact hnamed s (mem_cons_of_mem r hs)
      · intro x y hx hy hxy
        rw [hrest x hx.2,hrest y hy.2] at hxy
        exact hinj x y hx.1 hy.1 hxy

end Names

section Evolve

variable {m m' : IcebergMetadata} {e : SchemaEvolution} {fields : List IcebergField} {last : Int}

theorem names_evolved (e : SchemaEvolution) (fields : List IcebergField) (last : Int) :
    (renameFields e.renames fields ++ addedFields last e.adds).map (·.name) =
      (fields.map (·.name)).map (renamedName e.renames) ++ e.adds.map (·.name) := by
  rw [map_append,renameFields_eq,map_map,map_map,names_addedFields]
  rfl

theorem getElem?_evolved {i : Nat} {f : IcebergField} (h : fields[i]? = some f) :
    (renameFields e.renames fields ++ addedFields last e.adds)[i]? =
      some { f with name := renamedName e.renames f.name } := by
  have hi := (List.getElem?_eq_some_iff.1 h).1
  rw [renameFields_eq,getElem?_append_left (by simpa using hi),getElem?_map,h]
  rfl

theorem EvolvedRight.renamedName
    (h : EvolvedRight e fields (renameFields e.renames fields ++ addedFields last e.adds))
    {r : RenameColumnRequest} (hr : r ∈ e.renames) :
    renamedName e.renames r.oldName = r.newName := by
  obtain ⟨f,hf,hname⟩ := mem_map.1 (h.known r hr)
  obtain ⟨i,hi⟩ := mem_iff_getElem?.1 hf
  obtain ⟨g,hg,-,hrenamed,-⟩ := h.renamed i f hi
  rw [getElem?_evolved hi,Option.some_inj] at hg
  rw [← hrenamed r hr hname.symm,← hg,hname]

theorem EvolvedRight.simultaneous
    (h : EvolvedRight e fields (renameFields e.renames fields ++ addedFields last e.adds)) :
    e.Simultaneous (fields.map (·.name)) := by
  have hnodup := h.distinct
  rw [names_evolved] at hnodup
  refine ⟨h.known,?_,?_,?_⟩
  · intro r hr r' hr' hold
    rw [← h.renamedName hr,← h.renamedName hr',hold]
  · refine unchained_of_renamed h.known (fun r hr => h.renamedName hr) fun x y hx hy hxy => ?_
    exact inj_on_of_nodup_map (nodup_append.1 hnodup).1 hx hy hxy
  · rw [map_congr_left fun x _ => targetName_eq_renamedName (fun r hr => h.renamedName hr) x]
    exact hnodup

theorem SchemaEvolution.Simultaneous.renamedName {names : List String} (h : e.Simultaneous names)
    {r : RenameColumnRequest} (hr : r ∈ e.renames) :
    renamedName e.renames r.oldName = r.newName := by
  refine renamedName_of_named ⟨r,hr,rfl⟩ (fun s hs hold => h.agree s hs r hr hold) ?_
  refine h.unchained.imp_of_mem fun {s t} hs _ hst hold hnext => ?_
  have hnew := h.agree s hs r hr hold
  rw [hst (hnew.trans hnext.symm),hnext]

theorem SchemaEvolution.Simultaneous.evolvedRight (h : e.Simultaneous (fields.map (·.name)))
    (last : Int) :
    EvolvedRight e fields (renameFields e.renames fields ++ addedFields last e.adds) := by
  refine ⟨?_, h.known, fun i f hi => ⟨_, getElem?_evolved hi, rfl, ?_, ?_⟩⟩
  · rw [names_evolved]
    have hdistinct := h.distinct
    rwa [map_congr_left fun x _ =>
      targetName_eq_renamedName (fun r hr => h.renamedName hr) x] at hdistinct
  · intro r hr hold
    rw [← h.renamedName hr,hold]
  · exact fun hf => renamedName_of_unnamed fun r hr hold => absurd (mem_map.2 ⟨r,hr,hold⟩) hf

/-- The schema that an evolution adds to a table is the one that was asked for exactly when the
renames are as good as simultaneous. -/
theorem evolved_right_iff {nowMs : Int} (h : m.evolved e nowMs = some m') :
    ∃ s, m'.schemas = m.schemas ++ [s] ∧ (EvolvedRight e m.currentFields s.fields ↔
      e.Simultaneous (m.currentFields.map (·.name))) := by
  obtain ⟨s,-,hfields,hschemas,-,-⟩ := schemas_evolved h
  refine ⟨s,hschemas,?_⟩
  rw [hfields]
  exact ⟨EvolvedRight.simultaneous, fun hs => hs.evolvedRight _⟩

def demoColumns : IcebergMetadata :=
  { demoMetadata 2 with
    schemas := [⟨0, [plainField 1 "a" "string", plainField 2 "b" "string"]⟩]
    lastColumnId := 2 }

/-- The second column gives its name to the first one, whose name goes to a new column. -/
def demoRenames : SchemaEvolution :=
  ⟨[⟨"b", "c"⟩, ⟨"a", "b"⟩], [⟨"a", "string", false, none, none, none⟩], []⟩

theorem evolved_right_demoRenames : ∃ m', demoColumns.evolved demoRenames 0 = some m' ∧
    ∃ s, m'.schemas = demoColumns.schemas ++ [s] ∧
      EvolvedRight demoRenames demoColumns.currentFields s.fields := by
  refine ⟨_,rfl,?_⟩
  obtain ⟨s,hs,hiff⟩ := evolved_right_iff (rfl : demoColumns.evolved demoRenames 0 = some _)
  exact ⟨s, hs, hiff.2 ⟨by decide, by decide, by decide, by decide⟩⟩

/-- The request succeeds, and the schema that it adds is not the right one. -/
def AcceptedWrong (e : SchemaEvolution) : Prop :=
  ∃ m' s, demoColumns.evolved e 0 = some m' ∧ m'.schemas = demoColumns.schemas ++ [s] ∧
    ¬EvolvedRight e demoColumns.currentFields s.fields

/-- Columns swap names, a missing column is renamed, and a column is added under another's name: all
three succeed, and the first leaves both columns under the name `a`. -/
theorem evolve_accepts_bad_requests :
    AcceptedWrong ⟨[⟨"a", "b"⟩, ⟨"b", "a"⟩], [], []⟩ ∧ AcceptedWrong ⟨[⟨"x", "y"⟩], [], []⟩ ∧
      AcceptedWrong ⟨[], [⟨"a", "string", false, none, none, none⟩], []⟩ := by
  refine ⟨⟨_, _, rfl, rfl, fun h => ?_⟩, ⟨_, _, rfl, rfl, fun h => ?_⟩, ⟨_, _, rfl, rfl, fun h => ?_⟩⟩
  · exact absurd h.distinct (by decide)
  · exact absurd h.known (by decide)
  · exact absurd h.distinct (by decide)

end Evolve
end AiLake
