import AiLake.TableHistory

/-! Compaction passes one after another, without other writers. Each puts one merged file, with an
index and of any size, in the place of its plan. -/
namespace AiLake

open List

def replaceFiles (current toCompact : List DataFileEntry) (merged : DataFileEntry) :
    List DataFileEntry :=
  current.filter (fun f => f.path ∉ toCompact.map (·.path)) ++ [merged]

theorem buildReplaceFileList_eq (site : Site) (toCompact : List DataFileEntry)
    (merged : DataFileEntry) : buildReplaceFileList site toCompact merged =
      (do let current ← listFiles site none; pure (replaceFiles current toCompact merged)) := rfl

/-- When passes come to an end: a pass without foreign files takes two files or none. -/
def CompactionConfig.Settling (config : CompactionConfig) : Prop :=
  config.maxFilesPerPass = 0 ∨ config.targetFileSizeBytes = 0 ∨
    2 ≤ config.minFilesToCompact ∧ 2 ≤ config.maxFilesPerPass

/-- The merged files of passes over a table: they have an index and new paths. -/
structure MergedFiles (files : List DataFileEntry) (merged : Nat → DataFileEntry) : Prop where
  indexed : ∀ n, (merged n).isForeign = false
  fresh : ∀ n, (merged n).path ∉ files.map (·.path)
  distinct : ∀ i j, (merged i).path = (merged j).path → i = j

namespace CompactionPlanner

variable (planner : CompactionPlanner) {files : List DataFileEntry} {merged : Nat → DataFileEntry}

/-- The files after `n` passes; a pass without a plan does nothing. -/
def afterPasses (merged : Nat → DataFileEntry) (files : List DataFileEntry) :
    Nat → List DataFileEntry
  | 0 => files
  | n + 1 =>
    let current := afterPasses merged files n
    if planner.plan current = [] then current
    else replaceFiles current (planner.plan current) (merged n)

/-- A plan is some of the files, each once, no more than allowed, foreign files first and as many of
them as fit. -/
structure WellPlanned (files : List DataFileEntry) : Prop where
  nodup : (planner.plan files).Nodup
  current : ∀ f ∈ planner.plan files, f ∈ files
  limited : (planner.plan files).length ≤ planner.config.maxFilesPerPass
  foreignFirst : ∃ foreign natives, planner.plan files = foreign ++ natives ∧
    (∀ f ∈ foreign, f.isForeign = true) ∧ (∀ f ∈ natives, f.isForeign = false) ∧
    foreign.length = min planner.config.maxFilesPerPass (files.countP (·.isForeign))

def candidates (files : List DataFileEntry) : List DataFileEntry :=
  (files.filter fun f => !f.isForeign).filter fun f =>
    f.fileSizeBytes < planner.config.targetFileSizeBytes

theorem plan_eq (files : List DataFileEntry) : ∃ rest,
    planner.plan files = (planner.sort (files.filter (·.isForeign)) ++ rest).take
      planner.config.maxFilesPerPass ∧
    (rest = [] ∧ (planner.candidates files).length < planner.config.minFilesToCompact ∨
      rest = planner.sort (planner.candidates files) ∧
        planner.config.minFilesToCompact ≤ (planner.candidates files).length) := by
  by_cases hfew : (planner.candidates files).length < planner.config.minFilesToCompact
  · refine ⟨[], ?_, .inl ⟨rfl,hfew⟩⟩
    rw [append_nil]
    refine (if_pos hfew).trans ?_
    split
    next hempty =>
      rw [isEmpty_iff.1 hempty,(planner.sort_perm []).eq_nil,take_nil]
    next => rfl
  · exact ⟨_, if_neg hfew, .inr ⟨rfl, Nat.le_of_not_lt hfew⟩⟩

theorem mem_candidates {f : DataFileEntry} : f ∈ planner.candidates files ↔
    f ∈ files ∧ f.isForeign = false ∧ f.fileSizeBytes < planner.config.targetFileSizeBytes := by
  simp only [candidates,mem_filter,Bool.not_eq_true',decide_eq_true_eq,and_assoc]

theorem wellPlanned (hpaths : (files.map (·.path)).Nodup) : planner.WellPlanned files := by
  have hsub := planner.plan_subperm files
  obtain ⟨rest,hplan,hrest⟩ := planner.plan_eq files
  have hnative : ∀ f ∈ rest, f.isForeign = false := by
    intro f hf
    rcases hrest with ⟨rfl,-⟩ | ⟨rfl,-⟩
    · cases hf
    · exact (planner.mem_candidates.1 ((planner.sort_perm _).mem_iff.1 hf)).2.1
  refine ⟨?_, fun f hf => hsub.subset hf, ?_, _, _, hplan.trans take_append, ?_, ?_, ?_⟩
  · exact (nodup_map_of_subperm hsub hpaths).of_map _
  · rw [hplan]
    exact length_take_le _ _
  · intro f hf
    exact (mem_filter.1 ((planner.sort_perm _).mem_iff.1 (mem_of_mem_take hf))).2
  · exact fun f hf => hnative f (mem_of_mem_take hf)
  · rw [length_take,(planner.sort_perm _).length_eq,countP_eq_length_filter]

theorem two_le_of_plan (hconfig : planner.config.Settling) (hplan : planner.plan files ≠ []) :
    2 ≤ (planner.plan files).length + (planner.plan files).countP (·.isForeign) := by
  obtain ⟨rest,heq,hrest⟩ := planner.plan_eq files
  have hpos : 0 < planner.config.maxFilesPerPass := by
    refine Nat.pos_of_ne_zero fun h => hplan ?_
    rw [heq,h,take_zero]
  by_cases hforeign : planner.sort (files.filter (·.isForeign)) = []
  · rw [hforeign,nil_append] at heq
    rcases hrest with ⟨rfl,-⟩ | ⟨rfl,hmin⟩
    · exact absurd (heq.trans take_nil) hplan
    · rcases hconfig with h | h | ⟨hmin',hmax⟩
      · omega
      · have hnone : planner.candidates files = [] := by
          refine eq_nil_iff_forall_not_mem.2 fun f hf => ?_
          have := (planner.mem_candidates.1 hf).2.2
          omega
        rw [hnone,(planner.sort_perm []).eq_nil,take_nil] at heq
        exact absurd heq hplan
      · rw [heq,length_take,(planner.sort_perm _).length_eq]
        omega
  · obtain ⟨f,fs,hsorted⟩ := exists_cons_of_ne_nil hforeign
    have hf : f.isForeign = true := by
      have hmem : f ∈ planner.sort (files.filter (·.isForeign)) := by simp [hsorted]
      exact (mem_filter.1 ((planner.sort_perm _).mem_iff.1 hmem)).2
    obtain ⟨k,hk⟩ := Nat.exists_eq_succ_of_ne_zero hpos.ne'
    rw [heq,hsorted,hk,cons_append,take_succ_cons,length_cons,
      countP_cons_of_pos hf]
    omega

section Pass

variable {files : List DataFileEntry} {f : DataFileEntry}

theorem perm_plan_append (hpaths : (files.map (·.path)).Nodup) :
    (planner.plan files ++ files.filter fun f => f.path ∉ (planner.plan files).map (·.path)).Perm
      files := by
  obtain ⟨picked,hpicked,hsub⟩ := planner.plan_subperm files
  obtain ⟨others,hperm⟩ := hsub.exists_perm_append
  replace hperm := hperm.trans (hpicked.append_right others)
  have hnodup := ((hperm.map (·.path)).nodup_iff).1 hpaths
  rw [map_append,nodup_append] at hnodup
  have hkept : files.filter (fun f => f.path ∉ (planner.plan files).map (·.path)) |>.Perm others := by
    refine (hperm.filter _).trans (.of_eq ?_)
    rw [filter_append,filter_eq_nil_iff.2,filter_eq_self.2,nil_append]
    · intro g hg
      refine decide_eq_true fun hmem => ?_
      exact hnodup.2.2 _ hmem _ (mem_map_of_mem hg) rfl
    · intro g hg
      simpa using ⟨g,hg,rfl⟩
  exact (hkept.append_left _).trans hperm.symm

/-- What decreases: the number of files, foreign files counted twice. -/
def weight (files : List DataFileEntry) : Nat := files.length + files.countP (·.isForeign)

theorem weight_replaceFiles_lt (hconfig : planner.config.Settling)
    (hpaths : (files.map (·.path)).Nodup) (hplan : planner.plan files ≠ [])
    (hf : f.isForeign = false) :
    weight (replaceFiles files (planner.plan files) f) < weight files := by
  have hperm := planner.perm_plan_append hpaths
  have hlen := hperm.length_eq
  have hcount := hperm.countP_eq (·.isForeign)
  have htwo := planner.two_le_of_plan hconfig hplan
  have hnone : [f].countP (·.isForeign) = 0 := by simp [hf]
  simp only [weight,replaceFiles,length_append,countP_append,length_singleton,
    hnone] at *
  omega

theorem nodup_replaceFiles {toCompact : List DataFileEntry} (hpaths : (files.map (·.path)).Nodup)
    (hf : f.path ∉ files.map (·.path)) : ((replaceFiles files toCompact f).map (·.path)).Nodup := by
  rw [replaceFiles,map_append,nodup_append]
  refine ⟨hpaths.sublist (filter_sublist.map _), nodup_singleton _, ?_⟩
  intro p hp q hq heq
  rw [map_singleton,mem_singleton] at hq
  exact hf (hq ▸ heq ▸ (filter_sublist.map _).subset hp)

end Pass

section Passes

variable {files : List DataFileEntry} {merged : Nat → DataFileEntry}

theorem distinct_afterPasses (hpaths : (files.map (·.path)).Nodup)
    (hmerged : MergedFiles files merged) (n : Nat) :
    ((planner.afterPasses merged files n).map (·.path)).Nodup ∧
      ∀ k, n ≤ k → (merged k).path ∉ (planner.afterPasses merged files n).map (·.path) := by
  induction n with
  | zero => exact ⟨hpaths, fun k _ => hmerged.fresh k⟩
  | succ n ih =>
    rw [afterPasses]
    split
    next => exact ⟨ih.1, fun k hk => ih.2 k (Nat.le_of_succ_le hk)⟩
    next =>
      refine ⟨nodup_replaceFiles ih.1 (ih.2 n (Nat.le_refl n)), fun k hk hmem => ?_⟩
      rw [replaceFiles,map_append,mem_append,map_singleton,
        mem_singleton] at hmem
      rcases hmem with hmem | heq
      · exact ih.2 k (Nat.le_of_succ_le hk) ((filter_sublist.map _).subset hmem)
      · have := hmerged.distinct k n heq
        omega

theorem weight_afterPasses (hconfig : planner.config.Settling) (hpaths : (files.map (·.path)).Nodup)
    (hmerged : MergedFiles files merged) (n : Nat)
    (hplan : ∀ k < n, planner.plan (planner.afterPasses merged files k) ≠ []) :
    weight (planner.afterPasses merged files n) + n ≤ weight files := by
  induction n with
  | zero => exact Nat.le_refl _
  | succ n ih =>
    have hlt := planner.weight_replaceFiles_lt hconfig (planner.distinct_afterPasses hpaths hmerged n).1
      (hplan n (Nat.lt_succ_self n)) (hmerged.indexed n)
    have hle := ih fun k hk => hplan k (Nat.lt_succ_of_lt hk)
    rw [afterPasses]
    simp only [if_neg (hplan n (Nat.lt_succ_self n))]
    omega

end Passes

/-! Configurations under which single files are merged again and again. -/

def smallFile (n : Nat) : DataFileEntry :=
  makeDataFileEntry (String.ofList (List.replicate n 'a')) 1 0 ⟨"", 0⟩ ⟨"embedding", 1, 0, 0⟩

theorem smallFile_inj {i j : Nat} (h : (smallFile i).path = (smallFile j).path) : i = j := by
  have hlen := congrArg (fun s : String => s.toList.length) h
  simpa [smallFile,makeDataFileEntry,makeMultiColumnDataFileEntry] using hlen

/-- As many files as are needed for a pass, all of them small. -/
structure Idle (files : List DataFileEntry) : Prop where
  length : files.length = max 1 planner.config.minFilesToCompact
  native : ∀ f ∈ files, f.isForeign = false
  small : ∀ f ∈ files, f.fileSizeBytes = 0

variable {planner}

theorem Idle.length_plan {files : List DataFileEntry} (h : planner.Idle files)
    (hconfig : ¬planner.config.Settling) : (planner.plan files).length = 1 := by
  simp only [CompactionConfig.Settling,not_or,not_and_or] at hconfig
  obtain ⟨hmax,htarget,hone⟩ := hconfig
  have hlength := h.length
  have hforeign : files.filter (·.isForeign) = [] := by
    refine filter_eq_nil_iff.2 fun f hf => ?_
    simp [h.native f hf]
  have hall : planner.candidates files = files := by
    rw [candidates,filter_filter]
    refine filter_eq_self.2 fun f hf => ?_
    simp only [h.native f hf,h.small f hf,Nat.pos_of_ne_zero htarget,decide_true,Bool.not_false,
      Bool.and_self]
  obtain ⟨rest,heq,hrest⟩ := planner.plan_eq files
  rw [hforeign,(planner.sort_perm []).eq_nil,nil_append] at heq
  rw [hall] at hrest
  rcases hrest with ⟨-,hfew⟩ | ⟨rfl,-⟩
  · omega
  · rw [heq,length_take,(planner.sort_perm files).length_eq]
    omega

theorem Idle.replaceFiles {files : List DataFileEntry} (h : planner.Idle files)
    (hconfig : ¬planner.config.Settling) (hpaths : (files.map (·.path)).Nodup) (n : Nat) :
    planner.Idle (replaceFiles files (planner.plan files) (smallFile n)) := by
  have hlen := (planner.perm_plan_append hpaths).length_eq
  have hone := h.length_plan hconfig
  refine ⟨?_,?_,?_⟩
  · rw [length_append] at hlen
    rw [AiLake.replaceFiles,length_append,length_singleton,← h.length]
    omega
  all_goals
    intro f hf
    rcases mem_append.1 hf with hf | hf
  · exact h.native f (mem_filter.1 hf).1
  · rw [mem_singleton.1 hf]
    rfl
  · exact h.small f (mem_filter.1 hf).1
  · rw [mem_singleton.1 hf]
    rfl

variable (planner)

theorem endless_of_not_settling (hconfig : ¬planner.config.Settling) : ∃ files merged,
    (files.map (·.path)).Nodup ∧ MergedFiles files merged ∧
      ∀ n, planner.plan (planner.afterPasses merged files n) ≠ [] := by
  let m := max 1 planner.config.minFilesToCompact
  have hpaths : (((List.range m).map smallFile).map (·.path)).Nodup := by
    rw [map_map]
    exact nodup_range.map fun i j hij => smallFile_inj hij
  have hmerged : MergedFiles ((List.range m).map smallFile) fun n => smallFile (m + n) := by
    refine ⟨fun n => rfl, fun n hmem => ?_, fun i j hij => ?_⟩
    · rw [map_map] at hmem
      obtain ⟨k,hk,heq⟩ := mem_map.1 hmem
      have := smallFile_inj heq
      have := mem_range.1 hk
      omega
    · have := smallFile_inj hij
      omega
  have hidle : ∀ n, planner.Idle
      (planner.afterPasses (fun n => smallFile (m + n)) ((List.range m).map smallFile) n) := by
    intro n
    induction n with
    | zero =>
      refine ⟨by simp [afterPasses,m], ?_, ?_⟩ <;>
      · intro f hf
        obtain ⟨k,-,rfl⟩ := mem_map.1 hf
        rfl
    | succ n ih =>
      rw [afterPasses]
      split
      next => exact ih
      next => exact ih.replaceFiles hconfig (planner.distinct_afterPasses hpaths hmerged n).1 _
  refine ⟨_, _, hpaths, hmerged, fun n hnil => ?_⟩
  have hone := (hidle n).length_plan hconfig
  rw [hnil] at hone
  cases hone

/-- On every table with distinct paths, and whatever the merged files are, every pass has such a
plan, and the passes always end exactly when the configuration is settling. -/
theorem passes_settle_iff :
    (∀ files merged, (files.map (·.path)).Nodup → MergedFiles files merged →
      ∀ n, planner.WellPlanned (planner.afterPasses merged files n)) ∧
    ((∀ files merged, (files.map (·.path)).Nodup → MergedFiles files merged →
      ∃ n, planner.plan (planner.afterPasses merged files n) = []) ↔ planner.config.Settling) := by
  refine ⟨fun files merged hpaths hmerged n =>
    planner.wellPlanned (planner.distinct_afterPasses hpaths hmerged n).1, ?_, ?_⟩
  · intro hends
    by_contra hconfig
    obtain ⟨files,merged,hpaths,hmerged,hplan⟩ := planner.endless_of_not_settling hconfig
    obtain ⟨n,hnil⟩ := hends files merged hpaths hmerged
    exact hplan n hnil
  · intro hconfig files merged hpaths hmerged
    by_contra hplan
    have := planner.weight_afterPasses hconfig hpaths hmerged (weight files + 1)
      fun k _ hnil => hplan ⟨k,hnil⟩
    omega

/-- At least one file is enough for a pass: the only file of a table is merged by itself, and is small
again each time. -/
theorem single_file_endless : ∃ files merged, (files.map (·.path)).Nodup ∧
    MergedFiles files merged ∧
      ∀ n, (demoPlanner 1).plan ((demoPlanner 1).afterPasses merged files n) ≠ [] :=
  (demoPlanner 1).endless_of_not_settling (by unfold CompactionConfig.Settling; decide)

end CompactionPlanner
end AiLake
