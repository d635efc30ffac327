import AiLake.HnswParallelRuns
import AiLake.HnswRescore

/-! The graph of an index after a build, serial or parallel, and any number of insertions. -/
namespace AiLake.Hnsw

open BestFirst Checked StoreProgram List

namespace HnswIndex

variable {idx idx' : HnswIndex} {rowId : UInt64} {level : Nat} {v : List F32}

/-- A node has a list for each layer up to its level, with links to other nodes of the layer, each
once, no more than allowed; the entry point reaches up to the top layer, no node above it. -/
structure WellFormed (idx : HnswIndex) : Prop where
  wired : idx.Wired idx.rowIds.length
  tidy : idx.Tidy
  entered : idx.Entered idx.rowIds.length
  topped : idx.Topped idx.rowIds.length

theorem Tidy.append (h : idx.Tidy) (hlen : idx.neighbors.length = idx.rowIds.length) :
    (idx.append rowId level v).Tidy := by
  intro a layer l hl
  cases (list_append rowId level hlen).1 hl with
  | inl hl => exact h a layer l hl
  | inr hl =>
    rw [hl.2.2]
    exact ⟨nodup_nil, not_mem_nil, Nat.zero_le _⟩

theorem Topped.append (h : idx.Topped idx.rowIds.length)
    (hlen : idx.nodeLevels.length = idx.rowIds.length) :
    (idx.append rowId level v).Topped idx.rowIds.length := by
  refine ⟨fun j hj x hx => h.1 j hj x ?_, h.2⟩
  simp only [HnswIndex.append] at hx
  rwa [getElem?_append_left (by omega)] at hx

theorem Inserted.wellFormed (h : Inserted idx.rowIds.length level (idx.append rowId level v) idx')
    (hidx : idx.WellFormed) (hv : v.length = idx.dim) : idx'.WellFormed := by
  obtain ⟨hwired,hentered⟩ := h.wired_append hidx.wired hidx.entered hv
  have htidy := h.tidy (hidx.wired.append rowId level hv) (hidx.tidy.append hidx.wired.neighbors)
  have htopped := h.topped (hidx.topped.append hidx.wired.levels)
    (nodeLevels_append rowId level v hidx.wired.levels)
  refine ⟨hwired,htidy,hentered,?_⟩
  rw [h.rowIds_append,length_append,length_singleton]
  exact htopped

end HnswIndex

/-- Faults that are no access out of range: memory that is refused, a sort that panics. -/
def Refused (e : Fault) : Prop := e = .capacity ∨ e = .order

namespace HnswBuilder

variable {D : Type} [DecidableEq D] {sp : Space D} (rt : Runtime sp) (b : HnswBuilder)
variable (levels : Nat → Nat) (C : TaskPool → Nat → Unit → Prop)

/-- The indexes that a build, whose tasks meet the condition in each step, and insertions lead to. -/
inductive Reaches : HnswIndex → Prop
  | serial {idx : HnswIndex} (h : b.buildSerialTyped rt levels = .ok idx) : Reaches idx
  | parallel {start : HnswIndex} {labels : List (Nat × Unit)} {p : TaskPool}
      (hstart : b.bootstrap rt levels = .ok start)
      (hrun : History (TaskStep rt C) (start.tasks rt) labels p)
      (hdone : ∀ i, (p.thread i).program = .done ()) : Reaches p.shared
  | insert {idx idx' : HnswIndex} {rowId : UInt64} {v : List F32} {level : Nat} (h : Reaches idx)
      (hv : v.length = idx.dim) (hinsert : idx.insertNode rt rowId v level = .ok idx') : Reaches idx'

/-- How a build or an insertion can go wrong. Without vectors there is no parallel build. -/
inductive Fails : Fault → Prop
  | serial {e : Fault} (h : b.buildSerialTyped rt levels = .error e) : Fails e
  | bootstrap {e : Fault} (hne : b.vectors ≠ []) (h : b.bootstrap rt levels = .error e) : Fails e
  | task {start : HnswIndex} {labels : List (Nat × Unit)} {p : TaskPool} {i : Nat} {e : Fault}
      (hstart : b.bootstrap rt levels = .ok start)
      (hrun : History (TaskStep rt C) (start.tasks rt) labels p)
      (h : (p.thread i).program = .fail e) : Fails e
  | insert {idx : HnswIndex} {rowId : UInt64} {v : List F32} {level : Nat} {e : Fault}
      (h : Reaches rt b levels C idx) (hv : v.length = idx.dim)
      (hinsert : idx.insertNode rt rowId v level = .error e) : Fails e

variable {rt b levels C}

omit [DecidableEq D] in
theorem affords_refused (c : HnswConfig) : HnswIndex.Affords rt Refused c := .inl (.inl rfl)

omit [DecidableEq D] in
theorem ordersStored_refused (idx : HnswIndex) : HnswIndex.OrdersStored rt Refused idx :=
  fun _ _ _ => orders_of_fault (.inr rfl)

theorem outcome_serial (hb : b.Uniform) :
    Outcome Refused HnswIndex.WellFormed (b.buildSerialTyped rt levels) := by
  refine (outcome_buildSerial hb (.inl (.inl rfl)) (fun _ => affords_refused _)
    (ordersStored_refused _) (fun _ _ => True) trivial fun _ _ _ _ _ _ _ => trivial).mono
      fun idx h => ?_
  have hlen := h.1.length_rowIds
  exact ⟨hlen ▸ h.1.wired, h.1.tidy, hlen ▸ h.1.entered, hlen ▸ h.1.topped⟩

omit [DecidableEq D] in
theorem outcome_bootstrap {F : Fault → Prop} (hne : b.vectors ≠ [])
    (hlevels : F .capacity ∨ ∀ i < b.vectors.length, 32 * (levels i + 1) ≤ rt.limit) :
    Outcome F (fun start => start = { b.unlinked levels with entryPoint := some 0, maxLayer := levels 0 })
      (b.bootstrap rt levels) := by
  refine (Outcome.forM fun level hlevel => outcome_reserve ?_).bind fun _ _ => ?_
  · obtain ⟨i,hi,rfl⟩ := mem_map.1 hlevel
    exact hlevels.imp_right fun h => h i (mem_range.1 hi)
  · have hzero : (b.unlinked levels).nodeLevels[0]? = some (levels 0) :=
      nodeLevels_unlinked.2 ⟨length_pos_iff.2 hne, rfl⟩
    rw [hzero]
    exact rfl

theorem wellFormed_of_tasks (hb : b.Uniform) {start : HnswIndex} {labels : List (Nat × Unit)}
    {p : TaskPool} (hstart : b.bootstrap rt levels = .ok start)
    (hrun : History (TaskStep rt OrderlyStep) (start.tasks rt) labels p)
    (hdone : ∀ i, (p.thread i).program = .done ()) : p.shared.WellFormed := by
  obtain ⟨hshares,htracked⟩ := shares_run hb hstart (affords_refused _) (ordersStored_refused _) hrun
  refine ⟨hshares.wired, hshares.tidy, hshares.entered, fun j _ level hlevel => ?_, fun hnone => ?_⟩
  · have hj := htracked j
    rw [hdone j] at hj
    exact (hshares.tasks j).settled hj level hlevel
  · exact absurd hnone hshares.entry

theorem outcome_insertion {idx : HnswIndex} {rowId : UInt64} {v : List F32} {level : Nat}
    (h : idx.WellFormed) (hv : v.length = idx.dim) :
    Outcome Refused HnswIndex.WellFormed (idx.insertNode rt rowId v level) := by
  have hlen : (idx.stored sp v).length = idx.dim := (HnswIndex.length_stored v).trans hv
  exact (HnswIndex.outcome_insertNode h.wired h.entered hv (.inl (.inl rfl)) fun _ =>
    ⟨affords_refused _, ordersStored_refused _⟩).mono fun idx' hins => hins.wellFormed h hlen

theorem Reaches.wellFormed (hb : b.Uniform) {idx : HnswIndex}
    (h : b.Reaches rt levels OrderlyStep idx) : idx.WellFormed := by
  induction h with
  | serial h => exact (outcome_serial hb).ok h
  | parallel hstart hrun hdone => exact wellFormed_of_tasks hb hstart hrun hdone
  | insert _ hv hinsert ih => exact (outcome_insertion ih hv).ok hinsert

/-- If the tasks of a parallel build are orderly, every index is well formed, and nothing goes out of
range. -/
theorem wellFormed_of_orderly (hb : b.Uniform) :
    (∀ idx, b.Reaches rt levels OrderlyStep idx → idx.WellFormed) ∧
      ∀ e, b.Fails rt levels OrderlyStep e → e ≠ .outOfRange := by
  refine ⟨fun idx h => h.wellFormed hb, fun e h => ?_⟩
  have hrefused : Refused e := by
    cases h with
    | serial h => exact (outcome_serial hb).error h
    | bootstrap hne h => exact (outcome_bootstrap hne (.inl (.inl rfl))).error h
    | @task start labels p i e hstart hrun h =>
      have hi := (intact_run hb hstart (affords_refused _) (ordersStored_refused _) hrun).2 i
      rw [h] at hi
      exact hi
    | insert h hv hinsert => exact (outcome_insertion (h.wellFormed hb) hv).error hinsert
  cases hrefused with
  | inl he => exact he ▸ nofun
  | inr he => exact he ▸ nofun

end HnswBuilder
/-! Tasks of nodes on the lowest layer only. -/

section Lowest

variable {D : Type} [DecidableEq D] {sp : Space D} {rt : Runtime sp} {start : HnswIndex}

omit [DecidableEq D] in
theorem follow_rest_le {g : Progress} {op : GraphOp} (h : allowed start (fun _ _ => True) g op)
    (r : op.Reply) : (g.follow op r).level = g.level ∧ (g.follow op r).rest ≤ max g.rest (g.level + 1) := by
  cases op with
  | readEntry => exact ⟨rfl, le_max_left _ _⟩
  | loadMax =>
    unfold Progress.follow
    cases g.curMax with
    | none => exact ⟨rfl, le_max_of_le_right (Nat.succ_le_succ (Nat.min_le_left _ _))⟩
    | some cur => exact ⟨rfl, le_max_left _ _⟩
  | readList a layer => exact ⟨rfl, le_max_left _ _⟩
  | writeList a layer l =>
    cases r with
    | error e => exact ⟨rfl, le_max_left _ _⟩
    | ok _ => exact ⟨rfl, le_max_of_le_left (h.2.1 ▸ Nat.le_succ layer)⟩
  | linkBack nb layer a =>
    cases r with
    | error e => exact ⟨rfl, le_max_left _ _⟩
    | ok _ => exact ⟨rfl, le_max_left _ _⟩
  | promote a level => exact ⟨rfl, le_max_left _ _⟩

theorem exists_lone_run {p : TaskPool} {i : Nat} (h : Intact start p.shared p.ghosts)
    (hcap : HnswIndex.Affords rt (fun _ => False) start.config)
    (horder : HnswIndex.OrdersStored rt (fun _ => False) start) (hf16 : start.flatVecsF16 = none)
    (hlevel : start.nodeLevels[i]? = some 0)
    (hthread : p.thread i = ⟨start.insertPar rt i, .start i 0⟩) :
    ∃ labels q, History (TaskStep rt fun _ _ _ => True) p labels q ∧
      (q.thread i).program = .done () ∧ Intact start q.shared q.ghosts ∧
        (∀ a layer, layer ≠ 0 → q.shared.list a layer = p.shared.list a layer) ∧
          ∀ j ≠ i, q.thread j = p.thread j := by
  have hsized : start.Sized := by
    have hs := h.sized
    rw [h.fields] at hs
    exact ⟨hs.flat,hs.f16⟩
  have hi : i < start.rowIds.length := by
    have hlevels := h.levels
    rw [h.fields] at hlevels
    exact hlevels ▸ (List.getElem?_eq_some_iff.1 hlevel).1
  have htask : (p.thread i).program.Ensures (tracking start (fun _ => False) fun _ _ => True)
      (p.ghosts i) (Script.Ends (fun _ => False) fun _ p => p.settled = true) := by
    rw [Pool.ghosts,hthread]
    exact attains_insert hsized (fun _ _ _ _ _ => trivial) hi hlevel hf16 hcap horder
  have hrest : (p.ghosts i).rest ≤ 1 := by
    rw [Pool.ghosts,hthread]
    exact le_rfl
  let I (s : HnswIndex) (g : Nat → Progress) : Prop := Intact start s g ∧
    ((g i).level = 0 ∧ (g i).rest ≤ 1) ∧
      ∀ a layer, layer ≠ 0 → s.list a layer = p.shared.list a layer
  have hstep : ∀ s g (op : GraphOp), I s g → allowed start (fun _ _ => True) (g i) op →
      expected start (fun _ => False) (fun _ _ => True) (g i) op (s.perform rt () op).1 ∧
        I (s.perform rt () op).2 (Function.update g i ((g i).follow op (s.perform rt () op).1)) := by
    intro s g op hI hallowed
    obtain ⟨hintact,⟨hzero,hle⟩,hlists⟩ := hI
    obtain ⟨hexpected,hintact',hframe⟩ :=
      intact_perform hintact hcap (hintact.ordersStored horder) op hallowed
    refine ⟨hexpected, hintact', ?_, fun a layer hne => (hframe a layer fun hlayer => hne ?_).trans
      (hlists a layer hne)⟩
    · rw [Function.update_self]
      have hfollow := follow_rest_le hallowed (s.perform rt () op).1
      exact ⟨hfollow.1.trans hzero, hfollow.2.trans (by rw [hzero]; exact max_le hle le_rfl)⟩
    · cases op with
      | writeList a layer' l =>
        cases hlayer
        have := hallowed.2.1
        omega
      | linkBack nb layer' a =>
        cases hlayer
        obtain ⟨-,rfl,hhead⟩ := hallowed
        obtain ⟨level,hon,hle'⟩ := (hintact.tasks i).2.1 (ne_nil_of_mem (mem_of_mem_head? hhead))
        rw [hintact.fields,hlevel] at hon
        cases hon
        exact Nat.le_zero.1 hle'
      | _ => cases hlayer
  obtain ⟨labels,q,r,hrun,hresult,hend,hq,hother⟩ := Pool.exists_history_alone () I hstep htask
    ⟨h, ⟨by rw [Pool.ghosts,hthread]; rfl, hrest⟩, fun _ _ _ => rfl⟩
  cases r with
  | error e => exact hend.elim
  | ok _ => exact ⟨labels, q, hrun, Script.result_eq_ok.1 hresult, hq.1, hq.2.2, hother⟩

theorem exists_lone_runs {p : TaskPool} {k n : Nat} (h : Intact start p.shared p.ghosts)
    (hcap : HnswIndex.Affords rt (fun _ => False) start.config)
    (horder : HnswIndex.OrdersStored rt (fun _ => False) start) (hf16 : start.flatVecsF16 = none)
    (hthread : ∀ i, k ≤ i → i < k + n → start.nodeLevels[i]? = some 0 ∧
      p.thread i = ⟨start.insertPar rt i, .start i 0⟩) :
    ∃ labels q, History (TaskStep rt fun _ _ _ => True) p labels q ∧
      Intact start q.shared q.ghosts ∧ (∀ i, k ≤ i → i < k + n → (q.thread i).program = .done ()) ∧
        (∀ a layer, layer ≠ 0 → q.shared.list a layer = p.shared.list a layer) ∧
          ∀ j, j < k ∨ k + n ≤ j → q.thread j = p.thread j := by
  induction n generalizing p k with
  | zero => exact ⟨[], p, .start, h, fun i _ _ => by omega, fun _ _ _ => rfl, fun _ _ => rfl⟩
  | succ n ih =>
    obtain ⟨hlevel,hk⟩ := hthread k le_rfl (by omega)
    obtain ⟨labels,q,hrun,hdone,hq,hlists,hother⟩ := exists_lone_run h hcap horder hf16 hlevel hk
    obtain ⟨labels',q',hrun',hq',hdone',hlists',hother'⟩ := ih hq (k := k + 1) fun i hi hlt => by
      rw [hother i (by omega)]
      exact hthread i (by omega) (by omega)
    refine ⟨_, q', hrun.trans hrun', hq', fun i hi hlt => ?_, fun a layer hne => ?_, fun j hj => ?_⟩
    · by_cases hik : i = k
      · rw [hother' i (.inl (by omega)),hik,hdone]
      · exact hdone' i (by omega) (by omega)
    · rw [hlists' a layer hne,hlists a layer hne]
    · rw [hother' j (by omega),hother j (by omega)]

end Lowest

/-! Whether a step is orderly can be decided. -/

instance (idx : HnswIndex) (layer i : Nat) : Decidable (idx.OnLayer layer i) :=
  inferInstanceAs (Decidable (∃ level ∈ idx.nodeLevels[i]?, layer ≤ level))

instance decidableOrderly (s : HnswIndex) (g : Nat → Progress) (i : Nat) (op : GraphOp) :
    Decidable (Orderly s g i op) :=
  match op with
  | .loadMax => inferInstanceAs (Decidable ((g i).curMax = none → ∃ ep ∈ (g i).entry,
      s.OnLayer (min (g i).level s.maxLayer) ep))
  | .writeList _ layer l => inferInstanceAs (Decidable (∀ b ∈ l, (g b).rest ≤ layer))
  | .readEntry | .readList _ _ | .linkBack _ _ _ | .promote _ _ => .isTrue trivial

instance (p : TaskPool) (i : Nat) (e : Unit) : Decidable (OrderlyStep p i e) :=
  match h : (p.thread i).program.next with
  | none => .isTrue fun _ hop => nomatch h.symm.trans hop
  | some op => @decidable_of_iff _ (Orderly p.shared p.ghosts i op)
      ⟨fun ho _ hop => Option.some.inj (h.symm.trans hop) ▸ ho, fun ho => ho op h⟩
      (decidableOrderly p.shared p.ghosts i op)

def demoMachine : Runtime demoSpace := .standard demoSpace (2 ^ 63 - 1)

def demoPair : HnswBuilder := ⟨⟨2, 1, 10⟩, .euclidean, 1, [(0, [5#32]), (1, [9#32])]⟩

theorem wellFormed_demoPair : ∃ idx, demoPair.Reaches demoMachine (fun i => i) OrderlyStep idx ∧
    idx.neighbors = [[[1]], [[0], []]] ∧ idx.WellFormed := by
  have hb : demoPair.Uniform := by unfold HnswBuilder.Uniform; decide
  have hstart : demoPair.bootstrap demoMachine (fun i => i) = .ok { demoPair.unlinked (fun i => i) with
      entryPoint := some 0, maxLayer := 0 } := by decide +kernel
  obtain ⟨q,hq,hdone,hlists⟩ : ∃ q, (HnswIndex.tasks demoMachine { demoPair.unlinked (fun i => i) with
      entryPoint := some 0, maxLayer := 0 }).execIf following (fun s => s.perform demoMachine) OrderlyStep
        (List.replicate 7 (1, ())) = some q ∧ (q.thread 1).program.result = some (.ok ()) ∧
          q.shared.neighbors = [[[1]],[[0],[]]] := by
    have hexec : ((HnswIndex.tasks demoMachine { demoPair.unlinked (fun i => i) with
        entryPoint := some 0, maxLayer := 0 }).execIf following (fun s => s.perform demoMachine)
          OrderlyStep (List.replicate 7 (1, ()))).map (fun q =>
            ((q.thread 1).program.result, q.shared.neighbors)) =
              some (some (.ok ()), [[[1]],[[0],[]]]) := by decide +kernel
    obtain ⟨q,hq,hresult⟩ := Option.map_eq_some_iff.1 hexec
    exact ⟨q, hq, congrArg Prod.fst hresult, congrArg Prod.snd hresult⟩
  obtain ⟨hrun,hother⟩ := Pool.history_of_execIf hq
  have hreach : demoPair.Reaches demoMachine (fun i => i) OrderlyStep q.shared := by
    refine .parallel hstart hrun fun i => ?_
    match i with
    | 0 =>
      rw [hother 0 (by decide)]
      rfl
    | 1 => exact Script.result_eq_ok.1 hdone
    | i + 2 =>
      rw [hother (i + 2) (by simp)]
      rfl
  exact ⟨q.shared, hreach, hlists, (HnswBuilder.wellFormed_of_orderly hb).1 _ hreach⟩

@[irreducible] def demoCrowd : HnswBuilder :=
  ⟨⟨2, 1, 1000⟩, .euclidean, 1, (List.range 500).map fun i => (UInt64.ofNat i, [0#32])⟩

def demoLevels (i : Nat) : Nat := if i = 1 ∨ i = 2 then 1 else 0

def demoStart : HnswIndex :=
  { demoCrowd.unlinked demoLevels with entryPoint := some 0, maxLayer := demoLevels 0 }

theorem length_demoCrowd : demoCrowd.vectors.length = 500 := by
  unfold demoCrowd
  rw [length_map,length_range]

theorem uniform_demoCrowd : demoCrowd.Uniform := by
  unfold HnswBuilder.Uniform demoCrowd
  simp

theorem affords_demoStart : HnswIndex.Affords demoMachine (fun _ => False) demoStart.config := by
  have hconfig : demoStart.config = ⟨2,1,1000⟩ := by decide +kernel
  rw [hconfig]
  exact .inr ⟨show 32 ≤ 2 ^ 63 - 1 by decide, show 16 * (1 * 2) ≤ 2 ^ 63 - 1 by decide,
    show 16 * (1 + 1) ≤ 2 ^ 63 - 1 by decide, show 16 * (2 * 2) ≤ 2 ^ 63 - 1 by decide⟩

theorem bootstrap_demoCrowd : demoCrowd.bootstrap demoMachine demoLevels = .ok demoStart := by
  have hlevel (i : Nat) : 32 * (demoLevels i + 1) ≤ 2 ^ 63 - 1 := by
    unfold demoLevels
    split <;> decide
  have hne : demoCrowd.vectors ≠ [] := by
    rw [← length_pos_iff,length_demoCrowd]
    decide
  obtain ⟨start,hstart,rfl⟩ : ∃ start, demoCrowd.bootstrap demoMachine demoLevels = .ok start ∧
      start = demoStart :=
    outcome_false.1 (HnswBuilder.outcome_bootstrap hne (.inr fun i _ => hlevel i))
  exact hstart

/-- Task 2 reads the entry point, task 1 runs through and promotes its node, task 2 goes on. -/
def demoSchedule : List (Nat × Unit) :=
  (2, ()) :: (List.replicate 7 (1, ()) ++ List.replicate 7 (2, ()))

theorem exec_demoSchedule :
    ((demoStart.tasks demoMachine).exec following (fun s => s.perform demoMachine) demoSchedule).map
      (fun q => ((q.thread 1).program.result, (q.thread 2).program.result, q.shared.list 2 1)) =
        some (some (.ok ()), some (.ok ()), .ok [0]) := by
  decide +kernel

/-- A task that starts at an entry point below the top layer leaves a link to a node that is not on
the layer. -/
theorem links_below_layer :
    demoCrowd.Uniform ∧ ¬∀ idx, demoCrowd.Reaches demoMachine demoLevels (fun _ _ _ => True) idx →
      idx.WellFormed := by
  refine ⟨uniform_demoCrowd, fun hall => ?_⟩
  have horder : HnswIndex.OrdersStored demoMachine (fun _ => False) demoStart :=
    fun _ _ _ => (comparable_of_linear demoSpace_lt _).orders
  obtain ⟨p,hp,hresults⟩ := Option.map_eq_some_iff.1 exec_demoSchedule
  obtain ⟨h1,h2,hlist⟩ : (p.thread 1).program.result = some (.ok ()) ∧
      (p.thread 2).program.result = some (.ok ()) ∧ p.shared.list 2 1 = .ok [0] := by
    simpa only [Prod.mk.injEq] using hresults
  have hfirst : History (TaskStep demoMachine fun _ _ _ => True) (demoStart.tasks demoMachine)
      demoSchedule p := Pool.history_of_exec .start hp
  have hintact := (HnswBuilder.intact_run uniform_demoCrowd bootstrap_demoCrowd affords_demoStart horder
    hfirst).1
  have hscheduled : ∀ a ∈ demoSchedule, a.1 = 1 ∨ a.1 = 2 := by decide
  have hother (i : Nat) (h1 : i ≠ 1) (h2 : i ≠ 2) :
      p.thread i = (demoStart.tasks demoMachine).thread i :=
    Pool.exec_thread_of_notMem hp fun a ha heq => by
      have := hscheduled a ha
      omega
  have hlevel (i : Nat) (hi : 3 ≤ i) (hlt : i < 500) : demoStart.nodeLevels[i]? = some 0 := by
    refine HnswBuilder.nodeLevels_unlinked.2 ⟨by rwa [length_demoCrowd], ?_⟩
    rw [demoLevels,if_neg (by omega)]
  obtain ⟨labels,q,hrun,hq,hdone,hlists,hsame⟩ := exists_lone_runs (k := 3) (n := 497) hintact
    affords_demoStart horder rfl fun i hi hlt =>
      ⟨hlevel i hi hlt, by rw [hother i (by omega) (by omega),thread_tasks (by omega) (hlevel i hi hlt)]⟩
  have hreach : demoCrowd.Reaches demoMachine demoLevels (fun _ _ _ => True) q.shared := by
    refine .parallel bootstrap_demoCrowd (hfirst.trans hrun) fun i => ?_
    by_cases hi : 3 ≤ i ∧ i < 500
    · exact hdone i hi.1 hi.2
    · rw [hsame i (by omega)]
      match i with
      | 0 =>
        rw [hother 0 (by decide) (by decide)]
        exact thread_tasks_idle (.inr rfl)
      | 1 => exact Script.result_eq_ok.1 h1
      | 2 => exact Script.result_eq_ok.1 h2
      | i + 3 =>
        rw [hother (i + 3) (by omega) (by omega)]
        refine thread_tasks_idle (.inl (getElem?_eq_none ?_))
        have hlen : demoStart.nodeLevels.length = demoCrowd.vectors.length := by
          simp [demoStart,HnswBuilder.unlinked]
        rw [hlen,length_demoCrowd]
        omega
  have hlink := (hall _ hreach).wired.links 2 1 [0] (by rw [hlists 2 1 (by decide),hlist]) 0
    (mem_singleton_self 0)
  obtain ⟨level,hzero,hle⟩ := hlink.2
  rw [hq.fields] at hzero
  obtain ⟨-,rfl⟩ := HnswBuilder.nodeLevels_unlinked.1 hzero
  exact absurd hle (by decide)

end AiLake.Hnsw
