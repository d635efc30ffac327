import AiLake.HnswInsert
import AiLake.HnswParallel

/-! What the tasks of a parallel build keep: the graph stays well formed as long as no task links to
a node that has still to write its list of that layer, and none starts above its entry point. -/
namespace AiLake.Hnsw

open BestFirst Checked StoreProgram List Function

/-- How far a task is: the entry point and top layer it has read, the layers below `rest` still to
write, the nodes that get their link back on layer `rest`, and whether the top layer was seen to
reach its level. -/
structure Progress where
  node : Nat
  level : Nat
  entry : Option Nat
  curMax : Option Nat
  rest : Nat
  todo : List Nat
  settled : Bool

namespace Progress

def start (i level : Nat) : Progress := ⟨i, level, none, none, level + 1, [], false⟩

def idle (i level : Nat) : Progress := ⟨i, level, none, none, 0, [], true⟩

def follow (g : Progress) : (op : GraphOp) → op.Reply → Progress
  | .readEntry, ep => { g with entry := some (Option.getD ep 0) }
  | .loadMax, cur =>
    match g.curMax with
    | none => { g with curMax := some cur, rest := min g.level cur + 1 }
    | some _ => { g with settled := decide (g.level ≤ show Nat from cur) }
  | .readList _ _, _ => g
  | .writeList _ layer l, .ok _ => { g with rest := layer, todo := l }
  | .writeList _ _ _, .error _ => g
  | .linkBack _ _ _, .ok _ => { g with todo := g.todo.tail }
  | .linkBack _ _ _, .error _ => g
  | .promote _ _, _ => { g with settled := true }

end Progress

/-! The tasks count on it that whom they find on a layer is there, which `L` says. -/

variable (idx : HnswIndex) (F : Fault → Prop) (L : Nat → Nat → Prop)

/-- A list for a node on a layer, as the tasks choose it. -/
structure Selected (i layer : Nat) (l : List Nat) : Prop where
  nodup : l.Nodup
  mem : ∀ b ∈ l, b < idx.rowIds.length ∧ L layer b
  length : l.length ≤ maxLinks idx.config.m layer
  own : i < idx.rowIds.length ∧ idx.OnLayer layer i

def allowed (g : Progress) : GraphOp → Prop
  | .readEntry | .readList _ _ => True
  | .loadMax => g.curMax = none → g.entry ≠ none ∧ g.todo = [] ∧ g.rest = g.level + 1
  | .writeList i layer l => i = g.node ∧ layer + 1 = g.rest ∧ Selected idx L i layer l
  | .linkBack nb layer i => i = g.node ∧ layer = g.rest ∧ g.todo.head? = some nb
  | .promote i level => i = g.node ∧ idx.nodeLevels[i]? = some level

def expected (g : Progress) : (op : GraphOp) → op.Reply → Prop
  | .readEntry, ep => ∃ e, ep = some e ∧ e < idx.rowIds.length
  | .loadMax, cur => g.curMax = none → ∃ ep, g.entry = some ep ∧ L (min g.level cur) ep
  | .readList _ layer, l => ∀ b ∈ show List Nat from l, b < idx.rowIds.length ∧ L layer b
  | .writeList _ _ _, .error e | .linkBack _ _ _, .error e => F e
  | .writeList _ _ _, .ok _ | .linkBack _ _ _, .ok _ | .promote _ _, _ => True

def tracking : Tracking graph Progress where
  track := Progress.follow
  allows := allowed idx L
  expects := expected idx F L

/-- The task of node `i` on the shared graph `s`: who gets a link back from it is on the layer and does
not have it yet. -/
structure Task (s : HnswIndex) (i : Nat) (p : Progress) : Prop where
  node : p.node = i
  level : ∀ level, s.nodeLevels[i]? = some level → p.level = level
  settled : p.settled = true → ∀ level, s.nodeLevels[i]? = some level → level ≤ s.maxLayer
  nodup : p.todo.Nodup
  own : p.todo ≠ [] → s.OnLayer p.rest i
  lenders : ∀ nb ∈ p.todo, s.OnLayer p.rest nb ∧ nb ≠ i ∧ ∀ l, s.list nb p.rest = .ok l → i ∉ l

/-- The shared graph while the tasks are as far as `g` says: it is well formed, and links go to
nodes that have written their list of the layer. -/
structure Shares (s : HnswIndex) (g : Nat → Progress) : Prop where
  fields : s = { idx with neighbors := s.neighbors, entryPoint := s.entryPoint, maxLayer := s.maxLayer }
  wired : s.Wired s.rowIds.length
  tidy : s.Tidy
  entry : s.entryPoint ≠ none
  entered : s.Entered s.rowIds.length
  tasks : ∀ i, Task s i (g i)
  written : ∀ a layer l, s.list a layer = .ok l → ∀ b ∈ l, (g b).rest ≤ layer
  ready : ∀ i, ∀ nb ∈ (g i).todo, (g nb).rest ≤ (g i).rest

/-- The condition on a step: a task that loads the top layer has an entry point that reaches up to
where it begins, and links go to nodes that have written their lists of that layer. -/
def Orderly (s : HnswIndex) (g : Nat → Progress) (i : Nat) : GraphOp → Prop
  | .loadMax => (g i).curMax = none → ∃ ep, (g i).entry = some ep ∧
      s.OnLayer (min (g i).level s.maxLayer) ep
  | .writeList _ layer l => ∀ b ∈ l, (g b).rest ≤ layer
  | _ => True

variable {idx F L} {s : HnswIndex} {g : Nat → Progress} {i : Nat} {p : Progress}

theorem Shares.onLayer (h : Shares idx s g) {layer i : Nat} :
    idx.OnLayer layer i ↔ s.OnLayer layer i := by
  rw [HnswIndex.OnLayer,HnswIndex.OnLayer,h.fields]

theorem Shares.rowIds (h : Shares idx s g) : s.rowIds = idx.rowIds := by rw [h.fields]

theorem Shares.config (h : Shares idx s g) : s.config = idx.config := by rw [h.fields]

theorem rest_update_le (hrest : p.rest ≤ (g i).rest) (b : Nat) :
    (update g i p b).rest ≤ (g b).rest := by
  by_cases hb : b = i
  · subst hb
    rwa [update_self]
  · rw [update_of_ne hb]

theorem ready_update (h : ∀ i, ∀ nb ∈ (g i).todo, (g nb).rest ≤ (g i).rest)
    (hrest : p.rest ≤ (g i).rest) (htodo : ∀ nb ∈ p.todo, (g nb).rest ≤ p.rest) :
    ∀ j, ∀ nb ∈ (update g i p j).todo,
      (update g i p nb).rest ≤ (update g i p j).rest := by
  refine (forall_update_iff g fun j (x : Progress) => ∀ nb ∈ x.todo,
    (update g i p nb).rest ≤ x.rest).2 ⟨fun nb hnb => ?_, fun j _ nb hnb => ?_⟩
  · exact (rest_update_le hrest nb).trans (htodo nb hnb)
  · exact (rest_update_le hrest nb).trans (h j nb hnb)

theorem Shares.progress (h : Shares idx s g) (hrest : p.rest ≤ (g i).rest) (hp : Task s i p)
    (htodo : ∀ nb ∈ p.todo, (g nb).rest ≤ p.rest) : Shares idx s (update g i p) where
  fields := h.fields
  wired := h.wired
  tidy := h.tidy
  entry := h.entry
  entered := h.entered
  tasks := (forall_update_iff g fun j x => Task s j x).2 ⟨hp, fun j _ => h.tasks j⟩
  written a layer l hl b hb := (rest_update_le hrest b).trans (h.written a layer l hl b hb)
  ready := ready_update h.ready hrest htodo

/-! One list is replaced. -/

section Relist

variable {a layer : Nat} {old l : List Nat}

theorem list_relist_cases (hold : s.list a layer = .ok old) {b layer' : Nat} {k : List Nat}
    (hk : (s.relist a layer l).list b layer' = .ok k) :
    b = a ∧ layer' = layer ∧ k = l ∨ s.list b layer' = .ok k := by
  by_cases hne : b = a ∧ layer' = layer
  · obtain ⟨rfl,rfl⟩ := hne
    rw [HnswIndex.list_relist_self hold] at hk
    cases hk
    exact .inl ⟨rfl,rfl,rfl⟩
  · rw [HnswIndex.list_relist_of_ne (by tauto)] at hk
    exact .inr hk

theorem wired_relist (h : s.Wired s.rowIds.length) (hold : s.list a layer = .ok old)
    (hmem : ∀ b ∈ l, b < s.rowIds.length ∧ s.OnLayer layer b) :
    (s.relist a layer l).Wired s.rowIds.length where
  sized := (HnswIndex.frame_relist hold l).sized h.sized
  neighbors := (HnswIndex.frame_relist hold l).length.trans h.neighbors
  levels := h.levels
  shape b layer' := ((HnswIndex.frame_relist hold l).shape b layer').trans (h.shape b layer')
  links b layer' k hk c hc := by
    cases list_relist_cases hold hk with
    | inl heq =>
      obtain ⟨rfl,rfl,rfl⟩ := heq
      exact hmem c hc
    | inr hk => exact h.links b layer' k hk c hc
  fresh b layer' k hb hk := by
    -- there are no lists beyond the nodes
    obtain ⟨lists,hlists,-⟩ := HnswIndex.list_eq_ok.1 hk
    have hlt := (List.getElem?_eq_some_iff.1 hlists).1
    rw [(HnswIndex.frame_relist hold l).length,h.neighbors] at hlt
    omega

theorem tidy_relist (h : s.Tidy) (hold : s.list a layer = .ok old) (hnodup : l.Nodup) (ha : a ∉ l)
    (hlen : l.length ≤ maxLinks s.config.m layer) : (s.relist a layer l).Tidy := by
  intro b layer' k hk
  cases list_relist_cases hold hk with
  | inl heq =>
    obtain ⟨rfl,rfl,rfl⟩ := heq
    exact ⟨hnodup,ha,hlen⟩
  | inr hk => exact h b layer' k hk

theorem Shares.relist (h : Shares idx s g) (hold : s.list a layer = .ok old) (hnodup : l.Nodup)
    (ha : a ∉ l) (hlen : l.length ≤ maxLinks s.config.m layer)
    (hmem : ∀ b ∈ l, b < s.rowIds.length ∧ s.OnLayer layer b ∧ (update g i p b).rest ≤ layer)
    (hrest : p.rest ≤ (g i).rest) (hp : Task (s.relist a layer l) i p)
    (htodo : ∀ nb ∈ p.todo, (g nb).rest ≤ p.rest)
    (hother : ∀ j ≠ i, ∀ nb ∈ (g j).todo, nb = a → (g j).rest = layer → j ∉ l) :
    Shares idx (s.relist a layer l) (update g i p) where
  fields := by
    rw [HnswIndex.relist,h.fields]
  wired := wired_relist h.wired hold fun b hb => ⟨(hmem b hb).1, (hmem b hb).2.1⟩
  tidy := tidy_relist h.tidy hold hnodup ha hlen
  entry := h.entry
  entered := h.entered
  tasks := by
    refine (forall_update_iff g fun j x => Task (s.relist a layer l) j x).2 ⟨hp, fun j hj => ?_⟩
    have htask := h.tasks j
    refine ⟨htask.node, htask.level, htask.settled, htask.nodup, htask.own, fun nb hnb => ?_⟩
    obtain ⟨hon,hne,hlist⟩ := htask.lenders nb hnb
    refine ⟨hon, hne, fun k hk => ?_⟩
    cases list_relist_cases hold hk with
    | inl heq =>
      obtain ⟨rfl,hlayer,rfl⟩ := heq
      exact hother j hj nb hnb rfl hlayer
    | inr hk => exact hlist k hk
  written b layer' k hk c hc := by
    cases list_relist_cases hold hk with
    | inl heq =>
      obtain ⟨rfl,rfl,rfl⟩ := heq
      exact (hmem c hc).2.2
    | inr hk => exact (rest_update_le hrest c).trans (h.written b layer' k hk c hc)
  ready := ready_update h.ready hrest htodo

end Relist

/-! What each step keeps. -/

section Steps

variable {D : Type} {sp : Space D} {rt : Runtime sp}

theorem ifListed_eq {a layer : Nat} {l : List Nat} (hl : s.list a layer = .ok l)
    (change : Except Fault HnswIndex) : s.ifListed a layer change = change := by
  obtain ⟨lists,hlists,hlayer⟩ := HnswIndex.list_eq_ok.1 hl
  rw [HnswIndex.ifListed,hlists]
  exact if_pos (List.getElem?_eq_some_iff.1 hlayer).1

theorem Shares.readEntry (h : Shares idx s g) : expected idx F idx.OnLayer (g i) .readEntry s.entryPoint ∧
    Shares idx s (update g i ((g i).follow .readEntry s.entryPoint)) := by
  obtain ⟨ep,hep⟩ := Option.ne_none_iff_exists'.1 h.entry
  have htask := h.tasks i
  refine ⟨⟨ep, hep, h.rowIds ▸ (h.entered ep hep).1⟩, h.progress le_rfl ?_ (h.ready i)⟩
  exact ⟨htask.node,htask.level,htask.settled,htask.nodup,htask.own,htask.lenders⟩

theorem Shares.loadMax (h : Shares idx s g) (hallowed : allowed idx idx.OnLayer (g i) .loadMax)
    (horderly : Orderly s g i .loadMax) : expected idx F idx.OnLayer (g i) .loadMax s.maxLayer ∧
      Shares idx s (update g i ((g i).follow .loadMax s.maxLayer)) := by
  have htask := h.tasks i
  refine ⟨fun hnone => ?_, ?_⟩
  · obtain ⟨ep,hep,hon⟩ := horderly hnone
    exact ⟨ep, hep, h.onLayer.2 hon⟩
  · unfold Progress.follow
    cases hcur : (g i).curMax with
    | none =>
      obtain ⟨-,htodo,hrest⟩ := hallowed hcur
      refine h.progress ?_ ⟨htask.node,htask.level,htask.settled,htask.nodup,?_,?_⟩ ?_
      · rw [hrest]
        exact Nat.succ_le_succ (Nat.min_le_left _ _)
      · exact fun hne => absurd htodo hne
      · exact fun nb hnb => by rw [show _ = [] from htodo] at hnb; cases hnb
      · exact fun nb hnb => by rw [show _ = [] from htodo] at hnb; cases hnb
    | some cur =>
      refine h.progress le_rfl ⟨htask.node,htask.level,?_,htask.nodup,htask.own,htask.lenders⟩
        (h.ready i)
      intro hset level hlevel
      exact htask.level level hlevel ▸ of_decide_eq_true hset

theorem Shares.readList (h : Shares idx s g) (a layer : Nat) :
    expected idx F idx.OnLayer (g i) (.readList a layer) (((s.neighbors[a]?).bind (·[layer]?)).getD []) := by
  intro b hb
  cases hl : (s.neighbors[a]?).bind (·[layer]?) with
  | none => rw [hl] at hb; cases hb
  | some l =>
    rw [hl] at hb
    have hlink := h.wired.links a layer l (checked_eq_ok.2 hl) b hb
    exact ⟨h.rowIds ▸ hlink.1, h.onLayer.2 hlink.2⟩

theorem Shares.writeList (h : Shares idx s g) {layer : Nat} {l : List Nat}
    (hrest : layer + 1 = (g i).rest) (hsel : Selected idx idx.OnLayer i layer l)
    (horderly : ∀ b ∈ l, (g b).rest ≤ layer) : ∃ old, s.list i layer = .ok old ∧
      Shares idx (s.relist i layer l)
        (update g i { g i with rest := layer, todo := l }) := by
  have htask := h.tasks i
  obtain ⟨old,hold⟩ := (h.wired.shape i layer).2 (h.onLayer.1 hsel.own.2)
  have hi : i ∉ l := fun hmem => by
    have := horderly i hmem
    omega
  refine ⟨old, hold, h.relist hold hsel.nodup hi ?_ (fun b hb => ⟨?_,?_,?_⟩) (by simp only; omega) ?_
    horderly ?_⟩
  · rw [h.config]
    exact hsel.length
  · rw [h.rowIds]
    exact (hsel.mem b hb).1
  · exact h.onLayer.1 (hsel.mem b hb).2
  · exact (rest_update_le (by simp only; omega) b).trans (horderly b hb)
  · refine ⟨htask.node, htask.level, htask.settled, hsel.nodup, fun _ => h.onLayer.1 hsel.own.2,
      fun nb hnb => ?_⟩
    have hne : nb ≠ i := fun heq => hi (heq ▸ hnb)
    refine ⟨h.onLayer.1 (hsel.mem nb hnb).2, hne, fun k hk hmem => ?_⟩
    rw [HnswIndex.list_relist_of_ne (.inl hne)] at hk
    have := h.written nb layer k hk i hmem
    omega
  · intro j _ nb hnb heq hlayer
    have := h.ready j nb hnb
    rw [heq,hlayer] at this
    omega

theorem Shares.linkBack (h : Shares idx s g) {nb : Nat} (hhead : (g i).todo.head? = some nb)
    (hcap : F .capacity ∨ 16 * maxLinks idx.config.m (g i).rest ≤ rt.limit)
    (horder : HnswIndex.OrdersStored rt F s) :
    Outcome F (fun s' => Shares idx s' (update g i { g i with todo := (g i).todo.tail }))
      (HnswIndex.linkBack rt i (g i).rest s nb) := by
  have htask := h.tasks i
  obtain ⟨rest,htodo⟩ : ∃ rest, (g i).todo = nb :: rest := head?_eq_some_iff.1 hhead
  have hmem : nb ∈ (g i).todo := htodo ▸ mem_cons_self
  obtain ⟨hon,hne,hlist⟩ := htask.lenders nb hmem
  obtain ⟨l,hl⟩ := (h.wired.shape nb _).2 hon
  have hlt {b layer : Nat} (hb : s.OnLayer layer b) : b < s.rowIds.length := by
    obtain ⟨level,hlevel,-⟩ := hb
    rw [← h.wired.levels]
    exact (List.getElem?_eq_some_iff.1 hlevel).1
  have hown := htask.own (ne_nil_of_mem hmem)
  refine (HnswIndex.outcome_linkBack h.wired.sized (hlt hown) (hlt hon) hl
    (fun b hb => (h.wired.links nb _ l hl b hb).1) (by rwa [h.config]) (horder nb)).mono fun s' hs' => ?_
  obtain ⟨l',rfl,hext⟩ := hs'
  have hsub (b : Nat) (hb : b ∈ l') : b ∈ l ∨ b = i := by
    simpa using mem_append.1 (hext.subperm.subset hb)
  obtain ⟨hnodup,hself,hlen⟩ := hext.tidy (h.tidy nb _ l hl).1 (h.tidy nb _ l hl).2.1 (hlist l hl) hne
  refine h.relist hl hnodup hself hlen (fun b hb => ?_) le_rfl ?_ ?_ ?_
  · cases hsub b hb with
    | inl hb =>
      have hlink := h.wired.links nb _ l hl b hb
      have hle : (update g i { g i with todo := (g i).todo.tail } b).rest ≤ (g b).rest :=
        rest_update_le (by exact le_rfl) b
      exact ⟨hlink.1, hlink.2, hle.trans (h.written nb _ l hl b hb)⟩
    | inr heq =>
      subst heq
      exact ⟨hlt hown, hown, by rw [update_self]⟩
  · have hnodup' := htask.nodup
    rw [htodo] at hnodup'
    refine ⟨htask.node, htask.level, htask.settled, (tail_sublist _).nodup htask.nodup,
      fun _ => hown, fun nb' hnb' => ?_⟩
    obtain ⟨hon',hne',hlist'⟩ := htask.lenders nb' (mem_of_mem_tail hnb')
    refine ⟨hon', hne', fun k hk => ?_⟩
    have hother : nb' ≠ nb := by
      rintro rfl
      rw [htodo] at hnb'
      exact (nodup_cons.1 hnodup').1 hnb'
    rw [HnswIndex.list_relist_of_ne (.inl hother)] at hk
    exact hlist' k hk
  · exact fun nb' hnb' => h.ready i nb' (mem_of_mem_tail hnb')
  · intro j hj nb' hnb' heq hlayer hmem'
    subst heq
    cases hsub j hmem' with
    | inl hmem' => exact ((h.tasks j).lenders nb' hnb').2.2 l (hlayer ▸ hl) hmem'
    | inr heq => exact hj heq

theorem Shares.promote (h : Shares idx s g) {level : Nat} (hlevel : s.nodeLevels[i]? = some level) :
    Shares idx (s.promote i level) (update g i { g i with settled := true }) := by
  unfold HnswIndex.promote
  split
  · rename_i hlt
    have hraise {x : Nat} (hx : x ≤ s.maxLayer) : x ≤ level := hx.trans hlt.le
    refine ⟨?_, ⟨⟨h.wired.sized.flat,h.wired.sized.f16⟩,h.wired.neighbors,h.wired.levels,
      h.wired.shape,h.wired.links,h.wired.fresh⟩, h.tidy, nofun, ?_, ?_,
      fun a layer l hl b hb => (rest_update_le (by exact le_rfl) b).trans (h.written a layer l hl b hb),
      ready_update h.ready le_rfl (h.ready i)⟩
    · conv_lhs => rw [h.fields]
    · intro ep hep
      cases hep
      rw [← h.wired.levels]
      exact ⟨(List.getElem?_eq_some_iff.1 hlevel).1, hlevel⟩
    · refine (forall_update_iff g fun j x => Task _ j x).2 ⟨?_, fun j _ => ?_⟩
      · have htask := h.tasks i
        refine ⟨htask.node, htask.level, fun _ x hx => ?_, htask.nodup, htask.own, htask.lenders⟩
        exact (Option.some.inj (hx.symm.trans hlevel)).le
      · have htask := h.tasks j
        exact ⟨htask.node, htask.level, fun hset x hx => hraise (htask.settled hset x hx),
          htask.nodup, htask.own, htask.lenders⟩
  · rename_i hle
    have htask := h.tasks i
    refine h.progress le_rfl ⟨htask.node, htask.level, fun _ x hx => ?_, htask.nodup, htask.own,
      htask.lenders⟩ (h.ready i)
    rw [← Option.some.inj (hlevel.symm.trans hx)]
    exact Nat.le_of_not_lt hle

/-- Every step that meets the condition is answered as its task may expect, and keeps the sharing. -/
theorem shares_perform [DecidableEq D] (h : Shares idx s g) (hcap : HnswIndex.Affords rt F idx.config)
    (horder : HnswIndex.OrdersStored rt F s) (op : GraphOp) (hallowed : allowed idx idx.OnLayer (g i) op)
    (horderly : Orderly s g i op) :
    expected idx F idx.OnLayer (g i) op (s.perform rt () op).1 ∧
      Shares idx (s.perform rt () op).2
        (update g i ((g i).follow op (s.perform rt () op).1)) := by
  cases op with
  | readEntry => exact h.readEntry
  | loadMax => exact h.loadMax hallowed horderly
  | readList a layer =>
    refine ⟨h.readList a layer, ?_⟩
    rw [Progress.follow,update_eq_self]
    exact h
  | writeList a layer l =>
    obtain ⟨ha,hrest,hsel⟩ := hallowed
    obtain rfl : a = i := ha.trans (h.tasks i).node
    obtain ⟨old,hold,hshares⟩ := h.writeList hrest hsel horderly
    simp only [HnswIndex.perform,ifListed_eq hold,HnswIndex.setList_eq_ok hold,HnswIndex.changed]
    exact ⟨trivial,hshares⟩
  | linkBack nb layer a =>
    obtain ⟨ha,rfl,hhead⟩ := hallowed
    obtain rfl : a = i := ha.trans (h.tasks i).node
    obtain ⟨l,hl⟩ := (h.wired.shape nb _).2
      ((h.tasks a).lenders nb (mem_of_mem_head? hhead)).1
    have hlink := h.linkBack hhead (hcap.links _) horder
    simp only [HnswIndex.perform,ifListed_eq hl]
    cases hresult : HnswIndex.linkBack rt a (g a).rest s nb with
    | ok s' =>
      rw [hresult] at hlink
      exact ⟨trivial,hlink⟩
    | error e =>
      rw [hresult] at hlink
      refine ⟨hlink,?_⟩
      simp only [HnswIndex.changed,Progress.follow,update_eq_self]
      exact h
  | promote a level =>
    obtain ⟨ha,hlevel⟩ := hallowed
    obtain rfl : a = i := ha.trans (h.tasks i).node
    refine ⟨trivial, h.promote ?_⟩
    rw [h.fields]
    exact hlevel

end Steps

/-! What each task does. -/

section Tasks

variable {D : Type} [DecidableEq D] {sp : Space D} {rt : Runtime sp} {q : List F32} {layer ef : Nat}

theorem attains_ofExcept {α : Type} {Q : α → Prop} {x : Except Fault α} (h : Outcome F Q x) :
    (Script.ofExcept x).Attains (tracking idx F L) F p fun a p' => p' = p ∧ Q a := by
  cases x with
  | ok a => exact ⟨rfl,h⟩
  | error e => exact h

theorem attains_expand (c : Nat) : (idx.expandPar layer c).Attains (tracking idx F L) F p
    fun nbs p' => p' = p ∧ ∀ b ∈ nbs, b < idx.rowIds.length ∧ L layer b := by
  unfold HnswIndex.expandPar
  split
  · exact ⟨rfl,nofun⟩
  · split
    · exact ⟨rfl,nofun⟩
    · exact ⟨trivial, fun r hr => ⟨rfl,hr⟩⟩

theorem attains_explore {P : Nat → Prop} (hidx : idx.Sized) (hlt : ∀ b, P b → b < idx.rowIds.length)
    (hlink : ∀ b, b < idx.rowIds.length → L layer b → P b) {fuel : Nat}
    {s : Frontier D Nat} (hs : Frontier.Sound (idx.distance sp q) P s)
    (hfuel : s.cands.length + idx.rowIds.length ≤ fuel + s.visited.length) :
    (idx.explorePar rt q ef layer fuel s).Attains (tracking idx F L) F p fun t p' =>
      p' = p ∧ Frontier.Sound (idx.distance sp q) P t := by
  induction fuel generalizing s with
  | zero =>
    unfold HnswIndex.explorePar
    cases hnext : s.next rt.heaps sp.infinity with
    | none => exact ⟨rfl,hs⟩
    | some c =>
      have hlen : s.visited.length ≤ (List.range idx.rowIds.length).length :=
        (subperm_of_subset hs.nodup fun n hn =>
          mem_range.2 (hlt n (hs.known n hn))).length_le
      rw [length_range] at hlen
      have := (hs.next hnext).2.2.1
      omega
  | succ fuel ih =>
    unfold HnswIndex.explorePar
    cases hnext : s.next rt.heaps sp.infinity with
    | none => exact ⟨rfl,hs⟩
    | some c =>
      obtain ⟨hs',-,hcands,-,hvisited⟩ := hs.next hnext
      refine (attains_expand c.1).bind fun nbs p' hnbs => ?_
      obtain ⟨rfl,hnbs⟩ := hnbs
      have hdist (b : Nat) (hb : P b) : ∃ d, idx.distance sp q b = .ok d :=
        hidx.exists_distance sp q (hlt b hb)
      obtain ⟨t,ht,hsound,hgrows,-⟩ := (Frontier.takes_offer rt.heaps sp.infinity ef hdist).foldlM
        hs' fun b hb => hlink b (hnbs b hb).1 (hnbs b hb).2
      rw [ht]
      have hcost := hgrows.cands
      exact ih hsound (by rw [hvisited] at hcost; omega)

theorem attains_searchLayer {P : Nat → Prop} {eps : List Nat} (hidx : idx.Sized)
    (hlt : ∀ b, P b → b < idx.rowIds.length)
    (hlink : ∀ b, b < idx.rowIds.length → L layer b → P b) (heps : ∀ i ∈ eps, P i)
    (hcap : F .capacity ∨ 16 * (ef * 2) ≤ rt.limit ∧ 16 * (ef + 1) ≤ rt.limit)
    (horder : rt.Orders F (idx.Attained sp q)) :
    (idx.searchLayerPar rt q eps ef layer).Attains (tracking idx F L) F p fun w p' =>
      p' = p ∧ idx.Ranked sp q P w := by
  unfold HnswIndex.searchLayerPar
  refine (attains_ofExcept (outcome_reserve (hcap.imp_right And.left))).bind fun _ p' hp' => ?_
  obtain ⟨rfl,-⟩ := hp'
  refine (attains_ofExcept (outcome_reserve (hcap.imp_right And.right))).bind fun _ p' hp' => ?_
  obtain ⟨rfl,-⟩ := hp'
  have hdist (b : Nat) (hb : P b) : ∃ d, idx.distance sp q b = .ok d :=
    hidx.exists_distance sp q (hlt b hb)
  obtain ⟨s,hs,hsound,hgrows,-⟩ := (Frontier.takes_enter hdist).foldlM Frontier.sound_empty heps
  have hcands : s.cands.length ≤ s.visited.length := by simpa [Frontier.empty] using hgrows.cands
  rw [hs]
  refine (attains_explore hidx hlt hlink hsound (by omega)).bind fun t p' ht => ?_
  obtain ⟨rfl,ht⟩ := ht
  refine attains_ofExcept ((outcome_sort horder fun e he => ⟨e.2, (ht.found e he).2⟩).mono
    fun w hw => ?_)
  exact HnswIndex.ranked_of_perm ht hw

theorem attains_descend (lo hi : Nat) {P : Nat → Nat → Prop} {eps : List Nat} (hidx : idx.Sized)
    (hlt : ∀ layer b, P layer b → b < idx.rowIds.length)
    (hlink : ∀ layer b, b < idx.rowIds.length → L layer b → P layer b)
    (hdown : ∀ layer b, P (layer + 1) b → P layer b) (heps : ∀ b ∈ eps, P hi b)
    (hcap : F .capacity ∨ 32 ≤ rt.limit) (horder : rt.Orders F (idx.Attained sp q)) :
    (idx.descendPar rt q lo hi eps).Attains (tracking idx F L) F p fun eps' p' =>
      p' = p ∧ ∀ b ∈ eps', P (min hi (lo - 1)) b := by
  induction hi generalizing eps with
  | zero => exact ⟨rfl, by simpa using heps⟩
  | succ hi ih =>
    unfold HnswIndex.descendPar
    split
    · rename_i hlo
      refine (attains_searchLayer hidx (hlt (hi + 1)) (hlink (hi + 1)) heps (by simpa using hcap)
        horder).bind fun w p' hw => ?_
      obtain ⟨rfl,hw⟩ := hw
      rw [show min (hi + 1) (lo - 1) = min hi (lo - 1) by omega]
      refine ih fun b hb => hdown hi b ?_
      cases hbest : w.head? with
      | none =>
        rw [hbest] at hb
        exact heps b hb
      | some best =>
        rw [hbest] at hb
        obtain rfl := mem_singleton.1 hb
        exact (hw.mem best (mem_of_mem_head? hbest)).1
    · rename_i hlo
      refine ⟨rfl,?_⟩
      rw [show min (hi + 1) (lo - 1) = hi + 1 by omega]
      exact heps

theorem attains_linkBacks {i : Nat} {todo : List Nat} (hnode : p.node = i) (hrest : p.rest = layer)
    (htodo : p.todo = todo) : (HnswIndex.linkBacksPar i layer todo).Attains (tracking idx F L) F p
      fun _ p' => p' = { p with todo := [] } := by
  induction todo generalizing p with
  | nil =>
    show p = { p with todo := [] }
    rw [← htodo]
  | cons nb todo ih =>
    refine ⟨⟨hnode.symm, hrest.symm, by rw [htodo]; rfl⟩, fun r hr => ?_⟩
    cases r with
    | error e => exact hr
    | ok _ => exact ih hnode hrest (by show p.todo.tail = todo; rw [htodo]; rfl)

theorem attains_connect {i r : Nat} {eps : List Nat} (hidx : idx.Sized)
    (hdown : ∀ layer layer' b, layer' ≤ layer → L layer b → L layer' b)
    (hi : i < idx.rowIds.length) (hown : ∀ layer < r, idx.OnLayer layer i)
    (hnode : p.node = i) (hrest : p.rest = r) (htodo : p.todo = [])
    (heps : ∀ b ∈ eps, b < idx.rowIds.length ∧ L (r - 1) b)
    (hcap : HnswIndex.Affords rt F idx.config) (horder : rt.Orders F (idx.Attained sp q)) :
    (idx.connectPar rt i q r eps).Attains (tracking idx F L) F p fun _ p' =>
      p' = { p with rest := 0, todo := [] } := by
  induction r generalizing p eps with
  | zero =>
    show p = { p with rest := 0, todo := [] }
    rw [← htodo,← hrest]
  | succ layer ih =>
    unfold HnswIndex.connectPar
    refine (attains_searchLayer (P := fun b => b < idx.rowIds.length ∧ L layer b) hidx
      (fun b hb => hb.1) (fun b hb hon => ⟨hb,hon⟩) heps
      (hcap.imp_right fun h => ⟨h.2.1,h.2.2.1⟩) horder).bind fun w p' hw => ?_
    obtain ⟨rfl,hw⟩ := hw
    have hselect := HnswIndex.outcome_select rt hidx (F := F) (m := maxLinks idx.config.m layer)
      (fun e he => (hw.mem e he).1.1) (hcap.links layer)
    refine (attains_ofExcept hselect).bind fun selected p'' hsel => ?_
    obtain ⟨rfl,hsub,hlen,-⟩ := hsel
    have hmem (b : Nat) (hb : b ∈ selected) : b < idx.rowIds.length ∧ L layer b := by
      obtain ⟨e,he,rfl⟩ := mem_map.1 (hsub.subset hb)
      exact (hw.mem e he).1
    obtain ⟨taken,hperm,htaken⟩ := hsub
    have hselected : Selected idx L i layer selected :=
      ⟨hperm.nodup_iff.1 (hw.nodup.sublist htaken), hmem, hlen, hi, hown layer (Nat.lt_succ_self layer)⟩
    refine ⟨⟨hnode.symm,hrest.symm,hselected⟩, fun r hr => ?_⟩
    cases r with
    | error e => exact hr
    | ok _ =>
      show (HnswIndex.linkBacksPar i layer selected >>= fun _ =>
        idx.connectPar rt i q layer (w.map Prod.snd)).Attains (tracking idx F L) F
          { p'' with rest := layer, todo := selected } _
      have hlinks : (HnswIndex.linkBacksPar i layer selected).Attains (tracking idx F L) F
          { p'' with rest := layer, todo := selected } fun _ p' =>
            p' = { p'' with rest := layer, todo := [] } :=
        attains_linkBacks hnode rfl rfl
      refine hlinks.bind fun _ p' hp' => ?_
      subst hp'
      have hnext (b : Nat) (hb : b ∈ w.map Prod.snd) :
          b < idx.rowIds.length ∧ L (layer - 1) b := by
        obtain ⟨e,he,rfl⟩ := mem_map.1 hb
        exact ⟨(hw.mem e he).1.1, hdown _ _ _ (Nat.sub_le layer 1) (hw.mem e he).1.2⟩
      exact ih (fun k hk => hown k (Nat.lt_succ_of_lt hk)) hnode rfl rfl hnext

theorem attains_promote {i level : Nat} (hnode : p.node = i) (hplevel : p.level = level)
    (hcur : p.curMax ≠ none) (hlevel : idx.nodeLevels[i]? = some level) :
    (HnswIndex.promotePar i level).Attains (tracking idx F L) F p fun _ p' => p'.settled = true := by
  refine ⟨fun hnone => absurd hnone hcur, fun (cur : Nat) _ => ?_⟩
  have hfollow : p.follow .loadMax cur = { p with settled := decide (level ≤ cur) } := by
    obtain ⟨x,hx⟩ := Option.ne_none_iff_exists'.1 hcur
    simp only [Progress.follow,hx,hplevel]
  show Script.Attains (tracking idx F L) F
    (if cur < level then .call (.promote i level) .done else pure ()) (p.follow .loadMax cur) _
  rw [hfollow]
  split
  · exact ⟨⟨hnode.symm,hlevel⟩, fun _ _ => rfl⟩
  · exact decide_eq_true (Nat.le_of_not_lt ‹_›)

theorem attains_insert {i level : Nat} (hidx : idx.Sized)
    (hdown : ∀ layer layer' b, layer' ≤ layer → L layer b → L layer' b) (hi : i < idx.rowIds.length)
    (hlevel : idx.nodeLevels[i]? = some level) (hf16 : idx.flatVecsF16 = none)
    (hcap : HnswIndex.Affords rt F idx.config) (horder : HnswIndex.OrdersStored rt F idx) :
    (idx.insertPar rt i).Attains (tracking idx F L) F (.start i level) fun _ p' =>
      p'.settled = true := by
  obtain ⟨q,hq⟩ := hidx.exists_vector hi
  have horder' : rt.Orders F (idx.Attained sp q) :=
    (horder i q hq).mono fun d => HnswIndex.exact_of_attained hf16
  unfold HnswIndex.insertPar
  rw [hlevel,hq]
  refine Script.Attains.call trivial fun ep hep => Script.Attains.call (fun _ => ⟨nofun,rfl,rfl⟩)
    fun curMax hcur => ?_
  obtain ⟨e,rfl,he⟩ := hep
  obtain ⟨e',he',hon⟩ := hcur rfl
  cases he'
  let P (layer b : Nat) : Prop := b < idx.rowIds.length ∧ L (min layer (min level curMax)) b
  have hentry : ∀ b ∈ [e], P curMax b := by
    simpa [P] using ⟨he, hdown _ _ _ (Nat.min_le_right _ _) hon⟩
  refine Script.Attains.bind (attains_descend (level + 1) curMax (P := P) hidx (fun _ _ hb => hb.1)
    (fun layer b hb hon => ⟨hb, hdown _ _ _ (Nat.min_le_left _ _) hon⟩)
    (fun layer b hb => ⟨hb.1, hdown _ _ _ (by omega) hb.2⟩) hentry (hcap.imp_right And.left) horder')
    fun eps p' heps => ?_
  obtain ⟨rfl,heps⟩ := heps
  have hown (layer : Nat) (hlayer : layer < min level curMax + 1) : idx.OnLayer layer i :=
    ⟨level, hlevel, (Nat.le_of_lt_succ hlayer).trans (Nat.min_le_left _ _)⟩
  have hstart (b : Nat) (hb : b ∈ eps) :
      b < idx.rowIds.length ∧ L (min level curMax + 1 - 1) b :=
    ⟨(heps b hb).1, hdown _ _ _ (by simp only [Nat.add_sub_cancel]; omega) (heps b hb).2⟩
  refine (attains_connect hidx hdown hi hown rfl rfl rfl hstart hcap horder').bind fun _ p' hp' => ?_
  subst hp'
  exact attains_promote rfl rfl nofun hlevel

end Tasks
end AiLake.Hnsw
