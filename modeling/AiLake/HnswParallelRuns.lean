import AiLake.HnswBuild
import AiLake.HnswParallelSpec

/-! In any interleaving of a parallel build the lists hold nodes and no task goes out of range; in
an orderly one the graph is well formed at the end. -/
namespace AiLake.Hnsw

open BestFirst Checked StoreProgram List Function

/-- What every interleaving keeps: the lists are where the levels say, and they hold nodes. -/
structure Intact (idx s : HnswIndex) (g : Nat → Progress) : Prop where
  fields : s = { idx with neighbors := s.neighbors, entryPoint := s.entryPoint, maxLayer := s.maxLayer }
  sized : s.Sized
  neighbors : s.neighbors.length = s.rowIds.length
  levels : s.nodeLevels.length = s.rowIds.length
  shape : ∀ a layer, (∃ l, s.list a layer = .ok l) ↔ s.OnLayer layer a
  links : ∀ a layer l, s.list a layer = .ok l → ∀ b ∈ l, b < s.rowIds.length
  entry : ∃ ep, s.entryPoint = some ep ∧ ep < s.rowIds.length
  tasks : ∀ i, (g i).node = i ∧ ((g i).todo ≠ [] → s.OnLayer (g i).rest i) ∧
    ∀ nb ∈ (g i).todo, nb < s.rowIds.length

variable {idx s : HnswIndex} {g : Nat → Progress} {i : Nat} {p : Progress} {F : Fault → Prop}

theorem Intact.onLayer (h : Intact idx s g) {layer i : Nat} :
    idx.OnLayer layer i ↔ s.OnLayer layer i := by
  rw [HnswIndex.OnLayer,HnswIndex.OnLayer,h.fields]

theorem Intact.rowIds (h : Intact idx s g) : s.rowIds = idx.rowIds := by rw [h.fields]

theorem Intact.lt_of_onLayer (h : Intact idx s g) {layer i : Nat} (hi : s.OnLayer layer i) :
    i < s.rowIds.length := by
  obtain ⟨level,hlevel,-⟩ := hi
  rw [← h.levels]
  exact (List.getElem?_eq_some_iff.1 hlevel).1

theorem Intact.progress (h : Intact idx s g) (hnode : p.node = (g i).node)
    (htodo : p.todo = [] ∨ p.todo ⊆ (g i).todo ∧ p.rest = (g i).rest) :
    Intact idx s (update g i p) where
  fields := h.fields
  sized := h.sized
  neighbors := h.neighbors
  levels := h.levels
  shape := h.shape
  links := h.links
  entry := h.entry
  tasks := by
    refine (forall_update_iff g fun j (x : Progress) => x.node = j ∧
      (x.todo ≠ [] → s.OnLayer x.rest j) ∧ ∀ nb ∈ x.todo, nb < s.rowIds.length).2
        ⟨⟨hnode.trans (h.tasks i).1, ?_⟩, fun j _ => h.tasks j⟩
    cases htodo with
    | inl hnil => rw [hnil]; exact ⟨fun hne => absurd rfl hne, nofun⟩
    | inr hsub =>
      rw [hsub.2]
      refine ⟨fun hne => (h.tasks i).2.1 fun hnil => hne ?_, fun nb hnb => (h.tasks i).2.2 nb (hsub.1 hnb)⟩
      exact subset_nil.1 (hnil ▸ hsub.1)

theorem Intact.relist (h : Intact idx s g) {a layer : Nat} {old l : List Nat}
    (hold : s.list a layer = .ok old) (hmem : ∀ b ∈ l, b < s.rowIds.length) (hnode : p.node = (g i).node)
    (hown : s.OnLayer p.rest i) (htodo : ∀ nb ∈ p.todo, nb < s.rowIds.length) :
    Intact idx (s.relist a layer l) (update g i p) where
  fields := by rw [HnswIndex.relist,h.fields]
  sized := (HnswIndex.frame_relist hold l).sized h.sized
  neighbors := (HnswIndex.frame_relist hold l).length.trans h.neighbors
  levels := h.levels
  shape b layer' := ((HnswIndex.frame_relist hold l).shape b layer').trans (h.shape b layer')
  links b layer' k hk c hc := by
    cases list_relist_cases hold hk with
    | inl heq =>
      obtain ⟨rfl,rfl,rfl⟩ := heq
      exact hmem c hc
    | inr hk => exact h.links b layer' k hk c hc
  entry := h.entry
  tasks := (forall_update_iff g fun j (x : Progress) => x.node = j ∧
    (x.todo ≠ [] → s.OnLayer x.rest j) ∧ ∀ nb ∈ x.todo, nb < s.rowIds.length).2
      ⟨⟨hnode.trans (h.tasks i).1, fun _ => hown, htodo⟩, fun j _ => h.tasks j⟩

theorem Intact.promote (h : Intact idx s g) {level : Nat} (hi : i < s.rowIds.length) :
    Intact idx (s.promote i level) (update g i { g i with settled := true }) := by
  have hset : Intact idx s (update g i { g i with settled := true }) :=
    h.progress rfl (.inr ⟨List.Subset.refl _, rfl⟩)
  unfold HnswIndex.promote
  split
  · refine ⟨?_,⟨h.sized.flat,h.sized.f16⟩,h.neighbors,h.levels,h.shape,h.links,⟨i,rfl,hi⟩,
      hset.tasks⟩
    conv_lhs => rw [h.fields]
  · exact hset

theorem ifListed_of_unlisted {a layer : Nat} (ha : a < s.neighbors.length)
    (hl : ¬∃ l, s.list a layer = .ok l) (change : Except Fault HnswIndex) :
    s.ifListed a layer change = .ok s := by
  rw [HnswIndex.ifListed,getElem?_eq_getElem ha]
  refine if_neg fun hlt => hl ⟨s.neighbors[a][layer],?_⟩
  exact HnswIndex.list_eq_ok.2 ⟨_, getElem?_eq_getElem ha, getElem?_eq_getElem hlt⟩

def GraphOp.layer : GraphOp → Option Nat
  | .writeList _ layer _ | .linkBack _ layer _ => some layer
  | _ => none

section Steps

variable {D : Type} {sp : Space D} {rt : Runtime sp}

theorem intact_perform (h : Intact idx s g) (hcap : HnswIndex.Affords rt F idx.config)
    (horder : HnswIndex.OrdersStored rt F s) (op : GraphOp)
    (hallowed : allowed idx (fun _ _ => True) (g i) op) :
    expected idx F (fun _ _ => True) (g i) op (s.perform rt () op).1 ∧
      Intact idx (s.perform rt () op).2
        (update g i ((g i).follow op (s.perform rt () op).1)) ∧
      ∀ a layer, op.layer ≠ some layer → (s.perform rt () op).2.list a layer = s.list a layer := by
  cases op with
  | readEntry =>
    obtain ⟨ep,hep,hlt⟩ := h.entry
    exact ⟨⟨ep, hep, h.rowIds ▸ hlt⟩, h.progress rfl (.inr ⟨List.Subset.refl _, rfl⟩), fun _ _ _ => rfl⟩
  | loadMax =>
    refine ⟨fun hnone => ?_, ?_, fun _ _ _ => rfl⟩
    · obtain ⟨ep,hep⟩ := Option.ne_none_iff_exists'.1 (hallowed hnone).1
      exact ⟨ep,hep,trivial⟩
    · unfold Progress.follow
      cases hcur : (g i).curMax with
      | none => exact h.progress rfl (.inl (hallowed hcur).2.1)
      | some cur => exact h.progress rfl (.inr ⟨List.Subset.refl _, rfl⟩)
  | readList a layer =>
    refine ⟨fun b hb => ?_, ?_, fun _ _ _ => rfl⟩
    · cases hl : (s.neighbors[a]?).bind (·[layer]?) with
      | none =>
        simp only [HnswIndex.perform,hl] at hb
        cases hb
      | some l =>
        simp only [HnswIndex.perform,hl] at hb
        exact ⟨h.rowIds ▸ h.links a layer l (checked_eq_ok.2 hl) b hb, trivial⟩
    · rw [Progress.follow,update_eq_self]
      exact h
  | writeList a layer l =>
    obtain ⟨ha,hrest,hsel⟩ := hallowed
    obtain rfl : a = i := ha.trans (h.tasks i).1
    have hown := h.onLayer.1 hsel.own.2
    obtain ⟨old,hold⟩ := (h.shape a layer).2 hown
    simp only [HnswIndex.perform,ifListed_eq hold,HnswIndex.setList_eq_ok hold,HnswIndex.changed]
    refine ⟨trivial, h.relist hold (fun b hb => ?_) rfl hown fun b hb => ?_, fun b layer' hne => ?_⟩
    · exact h.rowIds ▸ (hsel.mem b hb).1
    · exact h.rowIds ▸ (hsel.mem b hb).1
    · exact HnswIndex.list_relist_of_ne (.inr fun heq : layer' = _ => hne (congrArg some heq.symm)) l
  | linkBack nb layer a =>
    obtain ⟨ha,rfl,hhead⟩ := hallowed
    obtain rfl : a = i := ha.trans (h.tasks i).1
    have hmem := mem_of_mem_head? hhead
    have hown := (h.tasks a).2.1 (ne_nil_of_mem hmem)
    have hrest (b : Nat) (hb : b ∈ (g a).todo.tail) : b < s.rowIds.length :=
      (h.tasks a).2.2 b (mem_of_mem_tail hb)
    by_cases hl : ∃ l, s.list nb (g a).rest = .ok l
    · obtain ⟨l,hl⟩ := hl
      have hconfig : s.config = idx.config := by rw [h.fields]
      have hlink := HnswIndex.outcome_linkBack h.sized (h.lt_of_onLayer hown)
        ((h.tasks a).2.2 nb hmem) hl (h.links nb _ l hl) (by rw [hconfig]; exact hcap.links _)
        (horder nb)
      simp only [HnswIndex.perform,ifListed_eq hl]
      cases hresult : HnswIndex.linkBack rt a (g a).rest s nb with
      | error e =>
        rw [hresult] at hlink
        refine ⟨hlink, ?_, fun _ _ _ => rfl⟩
        simp only [HnswIndex.changed,Progress.follow,update_eq_self]
        exact h
      | ok s' =>
        rw [hresult] at hlink
        obtain ⟨l',rfl,hext⟩ := hlink
        refine ⟨trivial, h.relist hl (fun b hb => ?_) rfl hown hrest, fun b layer' hne => ?_⟩
        · cases mem_append.1 (hext.subperm.subset hb) with
          | inl hb => exact h.links nb _ l hl b hb
          | inr hb => exact mem_singleton.1 hb ▸ h.lt_of_onLayer hown
        · exact HnswIndex.list_relist_of_ne (.inr fun heq : layer' = _ => hne (congrArg some heq.symm)) l'
    · have hlt : nb < s.neighbors.length := h.neighbors ▸ (h.tasks a).2.2 nb hmem
      simp only [HnswIndex.perform,ifListed_of_unlisted hlt hl,HnswIndex.changed]
      exact ⟨trivial, h.progress rfl (.inr ⟨tail_subset _, rfl⟩), fun _ _ _ => trivial⟩
  | promote a level =>
    obtain ⟨ha,hlevel⟩ := hallowed
    obtain rfl : a = i := ha.trans (h.tasks i).1
    refine ⟨trivial, ?_, fun b layer _ => ?_⟩
    · refine h.promote ?_
      have hlt := (List.getElem?_eq_some_iff.1 hlevel).1
      have hlevels := h.levels
      rw [h.fields] at hlevels ⊢
      exact hlevels ▸ hlt
    · simp only [HnswIndex.perform,HnswIndex.promote]
      split <;> rfl

end Steps

/-! Runs. -/

abbrev TaskPool := Pool Nat HnswIndex graph Fault Unit Progress

/-- The tasks are followed; nothing is asked of them. -/
def following : Tracking graph Progress where
  track := Progress.follow
  allows _ _ := True
  expects _ _ _ := True

variable {D : Type} [DecidableEq D] {sp : Space D} (rt : Runtime sp)

def TaskStep (C : TaskPool → Nat → Unit → Prop) : TaskPool → Nat × Unit → TaskPool → Prop :=
  Pool.Steps following (fun s => s.perform rt) C

def OrderlyStep (p : TaskPool) (i : Nat) (_ : Unit) : Prop :=
  ∀ op, (p.thread i).program.next = some op → Orderly p.shared p.ghosts i op

def HnswIndex.tasks (idx : HnswIndex) : TaskPool where
  shared := idx
  thread i :=
    match idx.nodeLevels[i]? with
    | none => ⟨.done (), .idle i 0⟩
    | some level => if i = 0 then ⟨.done (), .idle i level⟩ else ⟨idx.insertPar rt i, .start i level⟩

variable {rt}

theorem thread_tasks {level : Nat} (hi : i ≠ 0) (hlevel : idx.nodeLevels[i]? = some level) :
    (idx.tasks rt).thread i = ⟨idx.insertPar rt i, .start i level⟩ := by
  simp only [HnswIndex.tasks,hlevel,if_neg hi]

theorem thread_tasks_idle (h : idx.nodeLevels[i]? = none ∨ i = 0) :
    ((idx.tasks rt).thread i).program = .done () := by
  unfold HnswIndex.tasks
  simp only
  split
  · rfl
  · rename_i level hlevel
    rw [if_pos (h.resolve_left fun hnone => nomatch hlevel.symm.trans hnone)]

variable (rt idx) in
theorem ghosts_tasks (i : Nat) : ((idx.tasks rt).ghosts i).node = i ∧
    (∀ level, idx.nodeLevels[i]? = some level → ((idx.tasks rt).ghosts i).level = level) ∧
      ((idx.tasks rt).ghosts i).todo = [] ∧
        (((idx.tasks rt).ghosts i).settled = true → idx.nodeLevels[i]? = none ∨ i = 0) := by
  unfold Pool.ghosts HnswIndex.tasks
  simp only
  split
  · rename_i hnone
    exact ⟨rfl, fun level hlevel => (by rw [hnone] at hlevel; cases hlevel), rfl, fun _ => .inl hnone⟩
  · rename_i level hlevel
    split
    · rename_i hi
      exact ⟨rfl, fun x hx => Option.some.inj (hlevel.symm.trans hx), rfl, fun _ => .inr hi⟩
    · exact ⟨rfl, fun x hx => Option.some.inj (hlevel.symm.trans hx), rfl, fun h => nomatch h⟩

theorem tracked_tasks {L : Nat → Nat → Prop} (hidx : idx.Sized)
    (hlevels : idx.nodeLevels.length = idx.rowIds.length) (hf16 : idx.flatVecsF16 = none)
    (hdown : ∀ layer layer' b, layer' ≤ layer → L layer b → L layer' b)
    (hcap : HnswIndex.Affords rt F idx.config) (horder : HnswIndex.OrdersStored rt F idx) :
    (idx.tasks rt).Tracked (tracking idx F L) (Script.Ends F fun _ p => p.settled = true) := by
  intro i
  unfold HnswIndex.tasks
  simp only
  split
  · exact rfl
  · rename_i level hlevel
    split
    · exact rfl
    · have hi : i < idx.rowIds.length := hlevels ▸ (List.getElem?_eq_some_iff.1 hlevel).1
      exact attains_insert hidx hdown hi hlevel hf16 hcap horder

omit [DecidableEq D] in
theorem Intact.ordersStored (h : Intact idx s g) (horder : HnswIndex.OrdersStored rt F idx) :
    HnswIndex.OrdersStored rt F s := by
  intro j v hv
  rw [h.fields] at hv ⊢
  exact horder j v hv

theorem Shares.intact (h : Shares idx s g) : Intact idx s g where
  fields := h.fields
  sized := h.wired.sized
  neighbors := h.wired.neighbors
  levels := h.wired.levels
  shape := h.wired.shape
  links a layer l hl b hb := (h.wired.links a layer l hl b hb).1
  entry := by
    obtain ⟨ep,hep⟩ := Option.ne_none_iff_exists'.1 h.entry
    exact ⟨ep, hep, (h.entered ep hep).1⟩
  tasks i := by
    refine ⟨(h.tasks i).node, (h.tasks i).own, fun nb hnb => ?_⟩
    obtain ⟨level,hlevel,-⟩ := ((h.tasks i).lenders nb hnb).1
    rw [← h.wired.levels]
    exact (List.getElem?_eq_some_iff.1 hlevel).1

/-! The start of a build. -/

namespace HnswBuilder

variable {b : HnswBuilder} {levels : Nat → Nat} {start : HnswIndex}

omit [DecidableEq D] in
theorem bootstrap_eq_ok (h : b.bootstrap rt levels = .ok start) : 0 < b.vectors.length ∧
    start = { b.unlinked levels with entryPoint := some 0, maxLayer := levels 0 } := by
  obtain ⟨_,-,h⟩ := bind_eq_ok.1 h
  obtain ⟨top,htop,h⟩ := bind_eq_ok.1 h
  obtain ⟨hpos,rfl⟩ := nodeLevels_unlinked.1 (checked_eq_ok.1 htop)
  cases h
  exact ⟨hpos,rfl⟩

theorem shares_bootstrap (hb : b.Uniform) (h : b.bootstrap rt levels = .ok start) :
    Shares start start (start.tasks rt).ghosts := by
  obtain ⟨hpos,rfl⟩ := bootstrap_eq_ok h
  have hwired : (b.unlinked levels).Wired 0 := wired_unlinked hb
  have hempty {a layer : Nat} {l : List Nat} (hl : (b.unlinked levels).list a layer = .ok l) : l = [] :=
    (list_unlinked.1 hl).2.2
  have hzero : (b.unlinked levels).nodeLevels[0]? = some (levels 0) :=
    nodeLevels_unlinked.2 ⟨hpos,rfl⟩
  refine ⟨rfl, ⟨⟨hwired.sized.flat,hwired.sized.f16⟩, hwired.neighbors, hwired.levels, hwired.shape,
    fun a layer l hl c hc => ?_, fun a layer l _ hl => hempty hl⟩, fun a layer l hl => ?_, nofun,
    fun ep hep => ?_, fun i => ?_, fun a layer l hl c hc => ?_, fun i nb hnb => ?_⟩
  · rw [hempty hl] at hc
    cases hc
  · rw [hempty hl]
    exact ⟨nodup_nil, not_mem_nil, Nat.zero_le _⟩
  · cases hep
    exact ⟨by simpa [unlinked] using hpos, hzero⟩
  · obtain ⟨hnode,hlevel,htodo,hsettled⟩ := ghosts_tasks
      { b.unlinked levels with entryPoint := some 0, maxLayer := levels 0 } rt i
    refine ⟨hnode, hlevel, fun hset level hi => ?_, by rw [htodo]; exact nodup_nil, by simp [htodo],
      by simp [htodo]⟩
    cases hsettled hset with
    | inl hnone => rw [hnone] at hi; cases hi
    | inr hzero' =>
      subst hzero'
      exact (Option.some.inj (hi.symm.trans hzero)).le
  · rw [hempty hl] at hc
    cases hc
  · rw [(ghosts_tasks _ rt i).2.2.1] at hnb
    cases hnb

omit [DecidableEq D] in
theorem flatVecsF16_bootstrap (h : b.bootstrap rt levels = .ok start) : start.flatVecsF16 = none := by
  obtain ⟨-,rfl⟩ := bootstrap_eq_ok h
  rfl

variable {labels : List (Nat × Unit)} {p : TaskPool}

theorem intact_run (hb : b.Uniform) (hstart : b.bootstrap rt levels = .ok start)
    (hcap : HnswIndex.Affords rt F start.config) (horder : HnswIndex.OrdersStored rt F start)
    {C : TaskPool → Nat → Unit → Prop} (hrun : History (TaskStep rt C) (start.tasks rt) labels p) :
    Intact start p.shared p.ghosts ∧
      p.Tracked (tracking start F fun _ _ => True) (Script.Ends F fun _ p => p.settled = true) := by
  have hshares := shares_bootstrap hb hstart
  have hrun' : History (Pool.Steps (tracking start F fun _ _ => True) (fun s => s.perform rt) C)
      (start.tasks rt) labels p := hrun
  refine Pool.tracked_invariant (Intact start) (fun p i e op next hI hprog hallows _ => ?_) hrun'
    hshares.intact (tracked_tasks hshares.wired.sized hshares.wired.levels
      (flatVecsF16_bootstrap hstart) (fun _ _ _ _ _ => trivial) hcap horder)
  obtain ⟨hexpected,hI',-⟩ := intact_perform hI hcap (hI.ordersStored horder) op hallows
  exact ⟨hexpected,hI'⟩

theorem shares_run (hb : b.Uniform) (hstart : b.bootstrap rt levels = .ok start)
    (hcap : HnswIndex.Affords rt F start.config) (horder : HnswIndex.OrdersStored rt F start)
    (hrun : History (TaskStep rt OrderlyStep) (start.tasks rt) labels p) :
    Shares start p.shared p.ghosts ∧
      p.Tracked (tracking start F start.OnLayer) (Script.Ends F fun _ p => p.settled = true) := by
  have hshares := shares_bootstrap hb hstart
  have hrun' : History (Pool.Steps (tracking start F start.OnLayer) (fun s => s.perform rt)
      OrderlyStep) (start.tasks rt) labels p := hrun
  refine Pool.tracked_invariant (Shares start) (fun p i e op next hI hprog hallows horderly => ?_) hrun'
    hshares (tracked_tasks hshares.wired.sized hshares.wired.levels (flatVecsF16_bootstrap hstart)
      (fun _ _ _ hle hon => hon.down hle) hcap horder)
  exact shares_perform hI hcap (hI.intact.ordersStored horder) op hallows
    (horderly op (by rw [hprog]; rfl))

end HnswBuilder
end AiLake.Hnsw
