import AiLake.HnswSearch

/-! What an insertion does to the graph: each connected layer changes its lists as `Relinked`
states, and everything else follows. -/
namespace AiLake.Hnsw

open BestFirst Checked List

namespace HnswIndex

variable {D : Type} {sp : Space D} {rt : Runtime sp} {F : Fault → Prop} {idx idx' : HnswIndex}
  {layer a r m : Nat} {selected old l : List Nat} {q : List F32}

def OnLayer (idx : HnswIndex) (layer i : Nat) : Prop :=
  ∃ level, idx.nodeLevels[i]? = some level ∧ layer ≤ level

theorem OnLayer.down {layer' i : Nat} (h : idx.OnLayer layer i) (hle : layer' ≤ layer) :
    idx.OnLayer layer' i := by
  obtain ⟨level,hlevel,hlt⟩ := h
  exact ⟨level, hlevel, hle.trans hlt⟩

theorem list_eq_ok : idx.list a layer = .ok l ↔
    ∃ lists, idx.neighbors[a]? = some lists ∧ lists[layer]? = some l := by
  rw [list,checked_eq_ok,Option.bind_eq_some_iff]

def relist (idx : HnswIndex) (a layer : Nat) (l : List Nat) : HnswIndex :=
  { idx with neighbors := idx.neighbors.modify a (·.set layer l) }

theorem list_relist_self (h : idx.list a layer = .ok old) (l : List Nat) :
    (idx.relist a layer l).list a layer = .ok l := by
  obtain ⟨lists,hlists,hold⟩ := list_eq_ok.1 h
  refine list_eq_ok.2 ⟨lists.set layer l, ?_, ?_⟩
  · rw [relist,getElem?_modify_eq,hlists]
    rfl
  · exact List.getElem?_set_self (List.getElem?_eq_some_iff.1 hold).1

theorem list_relist_of_ne {b layer' : Nat} (h : b ≠ a ∨ layer' ≠ layer) (l : List Nat) :
    (idx.relist a layer l).list b layer' = idx.list b layer' := by
  have hneighbors : ((idx.neighbors.modify a (·.set layer l))[b]?).bind (·[layer']?) =
      (idx.neighbors[b]?).bind (·[layer']?) := by
    rw [getElem?_modify]
    by_cases hb : a = b
    · have hlayer := h.resolve_left fun hne => hne hb.symm
      cases idx.neighbors[b]? with
      | none => rfl
      | some lists => simp [hb,getElem?_set_ne hlayer.symm]
    · cases idx.neighbors[b]? with
      | none => rfl
      | some lists => simp [hb]
  exact congrArg (checked .outOfRange) hneighbors

theorem setList_eq_ok (h : idx.list a layer = .ok old) (l : List Nat) :
    idx.setList a layer l = .ok (idx.relist a layer l) := by
  rw [setList,h]
  rfl

/-! The choice of neighbours. -/

theorem outcome_anyM {α : Type} {f : α → Except Fault Bool} {l : List α}
    (h : ∀ a ∈ l, Outcome F (fun _ => True) (f a)) : Outcome F (fun r => l = [] → r = false)
      (l.anyM f) := by
  induction l with
  | nil => exact fun _ => rfl
  | cons a l ih =>
    obtain ⟨ha,hl⟩ := forall_mem_cons.1 h
    refine ha.bind fun b _ => ?_
    cases b with
    | true => exact fun hnil => nomatch hnil
    | false => exact (ih hl).mono fun r _ hnil => nomatch hnil

theorem outcome_selectLoop (hidx : idx.Sized) {cands result discarded : List (D × Nat)}
    (hcands : ∀ e ∈ cands, e.2 < idx.rowIds.length)
    (hresult : ∀ e ∈ result, e.2 < idx.rowIds.length) (hm : result.length ≤ m) :
    Outcome F (fun r => (r.1 ++ r.2).Subperm (result ++ discarded ++ cands) ∧ r.1.length ≤ m ∧
      (0 < m → result ≠ [] ∨ cands ≠ [] → r.1 ≠ [])) (idx.selectLoop sp m cands result discarded) := by
  induction cands generalizing result discarded with
  | nil =>
    refine ⟨by simpa using List.Subperm.refl (result ++ discarded), hm, fun _ hne => ?_⟩
    exact hne.resolve_right fun h => h rfl
  | cons e cands ih =>
    obtain ⟨he,hcands⟩ := forall_mem_cons.1 hcands
    unfold selectLoop
    split
    · rename_i hfull
      refine ⟨(sublist_append_left _ _).subperm, hm, fun hpos _ hnil => ?_⟩
      have hlen : result.length = 0 := length_eq_zero_iff.2 hnil
      omega
    · rename_i hroom
      obtain ⟨eVec,heVec⟩ := hidx.exists_vector he
      rw [heVec]
      have hcloser : Outcome F (fun r => result = [] → r = false)
          (result.anyM (idx.closer sp eVec e.1)) := by
        refine outcome_anyM fun r hr => ?_
        obtain ⟨rVec,hrVec⟩ := hidx.exists_vector (hresult r hr)
        rw [closer,hrVec]
        exact trivial
      refine hcloser.bind fun discard hdiscard => ?_
      cases discard with
      | true =>
        have hne : result ≠ [] := fun hnil => nomatch hdiscard hnil
        refine (ih hcands hresult hm).mono fun r hr => ⟨?_, hr.2.1, fun hpos _ => hr.2.2 hpos (.inl hne)⟩
        simpa [append_assoc] using hr.1
      | false =>
        have hresult' : ∀ x ∈ result ++ [e], x.2 < idx.rowIds.length := by
          intro x hx
          cases mem_append.1 hx with
          | inl hx => exact hresult x hx
          | inr hx => exact mem_singleton.1 hx ▸ he
        refine (ih hcands hresult' (by simp only [length_append,length_singleton]; omega)).mono
          fun r hr => ⟨hr.1.trans (List.Perm.subperm ?_), hr.2.1, fun hpos _ => hr.2.2 hpos (.inl (by simp))⟩
        simp only [append_assoc,singleton_append]
        exact List.Perm.append_left _ (perm_middle.symm)

variable (rt) in
theorem outcome_select (hidx : idx.Sized) {cands : List (D × Nat)}
    (hcands : ∀ e ∈ cands, e.2 < idx.rowIds.length) (hcap : F .capacity ∨ 16 * m ≤ rt.limit) :
    Outcome F (fun r => r.Subperm (cands.map Prod.snd) ∧ r.length ≤ m ∧ (0 < m → cands ≠ [] → r ≠ []))
      (idx.selectNeighborsHeuristic rt cands m) := by
  refine (outcome_reserve hcap).bind fun _ _ => ?_
  have hloop : Outcome F (fun r => (r.1 ++ r.2).Subperm ([] ++ [] ++ cands) ∧ r.1.length ≤ m ∧
      (0 < m → ([] : List (D × Nat)) ≠ [] ∨ cands ≠ [] → r.1 ≠ [])) (idx.selectLoop sp m cands [] []) :=
    outcome_selectLoop hidx hcands (fun _ h => nomatch h) (Nat.zero_le m)
  refine hloop.bind fun r hr => ⟨?_, ?_, fun hpos hne hnil => ?_⟩
  · have htake : (r.1 ++ r.2.take (m - r.1.length)).Subperm cands :=
      ((take_sublist _ _).append_left r.1).subperm.trans (by simpa using hr.1)
    obtain ⟨taken,hperm,hsub⟩ := htake
    exact ⟨taken.map Prod.snd, hperm.map Prod.snd, hsub.map Prod.snd⟩
  · simp only [length_map,length_append,length_take]
    have := hr.2.1
    omega
  · have hnil' := map_eq_nil_iff.1 hnil
    exact hr.2.2 hpos (.inr hne) (append_eq_nil_iff.1 hnil').1

theorem outcome_cutBack (hidx : idx.Sized) {nb : Nat} {conn : List Nat}
    (hnb : nb < idx.rowIds.length) (hconn : ∀ b ∈ conn, b < idx.rowIds.length)
    (hcap : F .capacity ∨ 16 * maxLinks idx.config.m layer ≤ rt.limit)
    (horder : ∀ v, idx.vector nb = .ok v → rt.Orders F (idx.Exact sp v)) :
    Outcome F (fun r => r.Subperm conn ∧ r.length ≤ maxLinks idx.config.m layer ∧
      (conn.length ≤ maxLinks idx.config.m layer → r = conn)) (idx.cutBack rt nb layer conn) := by
  unfold cutBack
  split
  · rename_i hlong
    obtain ⟨nbVec,hnbVec⟩ := hidx.exists_vector hnb
    rw [hnbVec]
    show Outcome F _ (idx.pruneConnections rt conn nbVec _)
    rw [pruneConnections,if_neg (by omega)]
    have hcands : Outcome F (List.Forall₂ (fun b (e : D × Nat) => e.2 = b ∧ idx.Exact sp nbVec e.1) conn)
        (conn.mapM (idx.candidate sp nbVec)) := by
      refine Outcome.mapM fun b hb => ?_
      obtain ⟨v,hv⟩ := hidx.exists_vector (hconn b hb)
      rw [candidate,hv]
      exact ⟨rfl,b,v,hv,rfl⟩
    refine hcands.bind fun cands hrel => ?_
    have hsnd : cands.map Prod.snd = conn :=
      (map_eq_map_of_forall₂ (f := id) (hrel.imp fun b e h => h.1)).trans (map_id conn)
    refine (outcome_sort (horder nbVec hnbVec) fun e he => ?_).bind fun sorted hsorted => ?_
    · obtain ⟨b,-,-,hexact⟩ := exists_of_mem_right hrel he
      exact hexact
    · have hsnd' : (sorted.map Prod.snd).Perm conn := hsnd ▸ hsorted.map Prod.snd
      refine (outcome_select rt hidx (fun e he => ?_) hcap).mono fun r hr =>
        ⟨hr.1.trans hsnd'.subperm, hr.2.1, fun hle => by omega⟩
      exact hconn e.2 (hsnd'.mem_iff.1 (mem_map_of_mem he))
  · rename_i hshort
    exact ⟨List.Subperm.refl _, Nat.le_of_not_lt hshort, fun _ => rfl⟩

/-! The links of one layer. -/

/-- A list that has got `i`, cut back to what is allowed. -/
structure Extended (m layer i : Nat) (old new : List Nat) : Prop where
  subperm : new.Subperm (old ++ [i])
  length : new.length ≤ maxLinks m layer
  whole : (old ++ [i]).length ≤ maxLinks m layer → new = old ++ [i]

theorem Extended.tidy {i : Nat} {new : List Nat} (h : Extended m layer i old new)
    (hnodup : old.Nodup) (ha : a ∉ old) (hi : i ∉ old) (hne : a ≠ i) :
    new.Nodup ∧ a ∉ new ∧ new.length ≤ maxLinks m layer := by
  have hconn : (old ++ [i]).Nodup := by
    refine nodup_append.2 ⟨hnodup, nodup_singleton i, fun x hx y hy he => ?_⟩
    exact hi (mem_singleton.1 hy ▸ he ▸ hx)
  obtain ⟨taken,hperm,hsub⟩ := h.subperm
  refine ⟨hperm.nodup_iff.1 (hconn.sublist hsub), fun hmem => ?_, h.length⟩
  cases mem_append.1 (h.subperm.subset hmem) with
  | inl hmem => exact ha hmem
  | inr hmem => exact hne (mem_singleton.1 hmem)

/-- Only lists have changed, and only these. -/
structure Frame (idx idx' : HnswIndex) (changed : Nat → Nat → Prop) : Prop where
  fields : idx' = { idx with neighbors := idx'.neighbors }
  length : idx'.neighbors.length = idx.neighbors.length
  lists : ∀ a layer, ¬changed a layer → idx'.list a layer = idx.list a layer
  shape : ∀ a layer, (∃ l, idx'.list a layer = .ok l) ↔ ∃ l, idx.list a layer = .ok l

theorem frame_relist (h : idx.list a layer = .ok old) (l : List Nat) :
    Frame idx (idx.relist a layer l) fun b layer' => b = a ∧ layer' = layer where
  fields := rfl
  length := by simp [relist]
  lists b layer' hne := list_relist_of_ne (by tauto) l
  shape b layer' := by
    by_cases heq : b = a ∧ layer' = layer
    · obtain ⟨rfl,rfl⟩ := heq
      exact ⟨fun _ => ⟨old,h⟩, fun _ => ⟨l, list_relist_self h l⟩⟩
    · rw [list_relist_of_ne (by tauto) l]

theorem Frame.trans {idx'' : HnswIndex} {changed changed' : Nat → Nat → Prop}
    (h : Frame idx idx' changed) (h' : Frame idx' idx'' changed') :
    Frame idx idx'' fun a layer => changed a layer ∨ changed' a layer where
  fields := by rw [h'.fields,h.fields]
  length := h'.length.trans h.length
  lists a layer hne := (h'.lists a layer fun hc => hne (.inr hc)).trans
    (h.lists a layer fun hc => hne (.inl hc))
  shape a layer := (h'.shape a layer).trans (h.shape a layer)

theorem Frame.refl (idx : HnswIndex) : Frame idx idx fun _ _ => False :=
  ⟨rfl, rfl, fun _ _ _ => rfl, fun _ _ => Iff.rfl⟩

theorem Frame.mono {changed changed' : Nat → Nat → Prop} (h : Frame idx idx' changed)
    (hle : ∀ a layer, changed a layer → changed' a layer) : Frame idx idx' changed' :=
  ⟨h.fields, h.length, fun a layer hne => h.lists a layer fun hc => hne (hle a layer hc), h.shape⟩

section Fields

variable {changed : Nat → Nat → Prop} (h : Frame idx idx' changed)
include h

theorem Frame.rowIds : idx'.rowIds = idx.rowIds := by rw [h.fields]
theorem Frame.nodeLevels : idx'.nodeLevels = idx.nodeLevels := by rw [h.fields]
theorem Frame.config : idx'.config = idx.config := by rw [h.fields]
theorem Frame.entryPoint : idx'.entryPoint = idx.entryPoint := by rw [h.fields]
theorem Frame.maxLayer : idx'.maxLayer = idx.maxLayer := by rw [h.fields]
theorem Frame.flatVecsF16 : idx'.flatVecsF16 = idx.flatVecsF16 := by rw [h.fields]

theorem Frame.vector (i : Nat) : idx'.vector i = idx.vector i := by
  rw [h.fields]
  rfl

theorem Frame.exact (q : List F32) : idx'.Exact sp q = idx.Exact sp q := by
  rw [h.fields]
  rfl

theorem Frame.onLayer {layer i : Nat} : idx'.OnLayer layer i ↔ idx.OnLayer layer i := by
  rw [OnLayer,OnLayer,h.nodeLevels]

theorem Frame.sized (hidx : idx.Sized) : idx'.Sized := by
  rw [h.fields]
  exact ⟨hidx.flat,hidx.f16⟩

end Fields

/-- The nodes that were chosen for a node on a layer. -/
structure Chosen (idx : HnswIndex) (i layer : Nat) (selected : List Nat) : Prop where
  nodup : selected.Nodup
  mem : ∀ b ∈ selected, b < i ∧ idx.OnLayer layer b
  length : selected.length ≤ maxLinks idx.config.m layer
  nonempty : 0 < maxLinks idx.config.m layer → selected ≠ []

/-- The links of `i` on a layer are set, and the chosen nodes have got their links back. -/
structure Relinked (idx idx' : HnswIndex) (i layer : Nat) (selected : List Nat) : Prop where
  chosen : idx.Chosen i layer selected
  frame : Frame idx idx' fun a layer' => layer' = layer ∧ (a = i ∨ a ∈ selected)
  own : idx'.list i layer = .ok selected
  back : ∀ nb ∈ selected, ∀ l, idx.list nb layer = .ok l →
    ∃ l', idx'.list nb layer = .ok l' ∧ Extended idx.config.m layer i l l'

theorem outcome_linkBack (hidx : idx.Sized) {i nb : Nat} (hi : i < idx.rowIds.length)
    (hnb : nb < idx.rowIds.length) (hl : idx.list nb layer = .ok l)
    (hmem : ∀ b ∈ l, b < idx.rowIds.length)
    (hcap : F .capacity ∨ 16 * maxLinks idx.config.m layer ≤ rt.limit)
    (horder : ∀ v, idx.vector nb = .ok v → rt.Orders F (idx.Exact sp v)) :
    Outcome F (fun idx' => ∃ l', idx' = idx.relist nb layer l' ∧ Extended idx.config.m layer i l l')
      (linkBack rt i layer idx nb) := by
  unfold linkBack
  rw [hl]
  have hconn : ∀ b ∈ l ++ [i], b < idx.rowIds.length := by
    intro b hb
    cases mem_append.1 hb with
    | inl hb => exact hmem b hb
    | inr hb => exact mem_singleton.1 hb ▸ hi
  refine (outcome_cutBack hidx hnb hconn hcap horder).bind fun l' hl' => ?_
  rw [setList_eq_ok hl]
  exact ⟨l',rfl,hl'.1,hl'.2.1,hl'.2.2⟩

theorem outcome_linkBacks (hidx : idx.Sized) {i : Nat} {todo : List Nat} (hnodup : todo.Nodup)
    (hi : i < idx.rowIds.length)
    (htodo : ∀ nb ∈ todo, nb < idx.rowIds.length ∧ ∃ l, idx.list nb layer = .ok l ∧
      ∀ b ∈ l, b < idx.rowIds.length)
    (hcap : F .capacity ∨ 16 * maxLinks idx.config.m layer ≤ rt.limit)
    (horder : ∀ j v, idx.vector j = .ok v → rt.Orders F (idx.Exact sp v)) :
    Outcome F (fun idx' => Frame idx idx' (fun a layer' => layer' = layer ∧ a ∈ todo) ∧
      ∀ nb ∈ todo, ∀ l, idx.list nb layer = .ok l →
        ∃ l', idx'.list nb layer = .ok l' ∧ Extended idx.config.m layer i l l')
      (todo.foldlM (linkBack rt i layer) idx) := by
  induction todo generalizing idx with
  | nil => exact ⟨(Frame.refl idx).mono fun _ _ h => h.elim, nofun⟩
  | cons nb todo ih =>
    obtain ⟨hnb,hnodup⟩ := nodup_cons.1 hnodup
    obtain ⟨⟨hlt,l,hl,hmem⟩,htodo⟩ := forall_mem_cons.1 htodo
    rw [foldlM_cons]
    refine (outcome_linkBack hidx hi hlt hl hmem hcap (horder nb)).bind fun mid hmid => ?_
    obtain ⟨l',rfl,hext⟩ := hmid
    have hframe := frame_relist hl l'
    -- the other lists are as before
    have hother (b : Nat) (hb : b ∈ todo) : (idx.relist nb layer l').list b layer = idx.list b layer :=
      list_relist_of_ne (.inl fun he : b = nb => hnb (he ▸ hb)) l'
    refine (ih (hframe.sized hidx) hnodup hi (fun b hb => ?_) hcap
      fun j v hv => horder j v hv).mono fun idx' h => ⟨?_,?_⟩
    · rw [hother b hb]
      exact htodo b hb
    · refine (hframe.trans h.1).mono fun a layer' hc => ?_
      cases hc with
      | inl hc => exact ⟨hc.2, hc.1 ▸ mem_cons_self⟩
      | inr hc => exact ⟨hc.1, mem_cons_of_mem nb hc.2⟩
    · refine forall_mem_cons.2 ⟨fun k hk => ?_, fun b hb k hk => ?_⟩
      · rw [hl] at hk
        cases hk
        refine ⟨l',?_,hext⟩
        rw [h.1.lists nb layer fun hc => hnb hc.2,list_relist_self hl]
      · exact h.2 b hb k ((hother b hb).trans hk)

/-! A whole insertion. -/

def Affords (rt : Runtime sp) (F : Fault → Prop) (c : HnswConfig) : Prop :=
  F .capacity ∨ 32 ≤ rt.limit ∧ 16 * (c.efConstruction * 2) ≤ rt.limit ∧
    16 * (c.efConstruction + 1) ≤ rt.limit ∧ 16 * (2 * c.m) ≤ rt.limit

theorem Affords.links {c : HnswConfig} (h : Affords rt F c) (layer : Nat) :
    F .capacity ∨ 16 * maxLinks c.m layer ≤ rt.limit := by
  refine h.imp_right fun h => ?_
  unfold maxLinks
  split <;> omega

/-- What the stored vectors are to each other: sorts of their distances panic only if admitted. -/
def OrdersStored (rt : Runtime sp) (F : Fault → Prop) (idx : HnswIndex) : Prop :=
  ∀ j v, idx.vector j = .ok v → rt.Orders F (idx.Exact sp v)

theorem Frame.ordersStored {changed : Nat → Nat → Prop} (h : Frame idx idx' changed)
    (horder : OrdersStored rt F idx) : OrdersStored rt F idx' := by
  intro j v hv
  rw [h.vector] at hv
  rw [h.exact]
  exact horder j v hv

theorem exact_of_attained {d : D} (hf16 : idx.flatVecsF16 = none) (h : idx.Attained sp q d) :
    idx.Exact sp q d := by
  obtain ⟨i,hi⟩ := h
  have hlt := lt_of_distance hi
  rw [distance,if_neg hlt.not_ge,hf16] at hi
  cases hv : idx.vector i with
  | error e =>
    simp only [hv] at hi
    cases hi
  | ok v =>
    simp only [hv] at hi
    cases hi
    exact ⟨i,v,hv,rfl⟩

/-- The layers below `r` have not been touched yet: their links are among the nodes before `i`. -/
structure Partly (idx : HnswIndex) (i r : Nat) : Prop where
  sized : idx.Sized
  f16 : idx.flatVecsF16 = none
  lt : i < idx.rowIds.length
  shape : ∀ a layer, (∃ l, idx.list a layer = .ok l) ↔ idx.OnLayer layer a
  below : ∀ a layer l, layer < r → idx.list a layer = .ok l → ∀ b ∈ l, b < i ∧ idx.OnLayer layer b
  reaches : ∀ layer < r, idx.OnLayer layer i

theorem expand_of_onLayer {c : Nat} (h : idx.OnLayer layer c) :
    idx.expand layer c = idx.list c layer := by
  obtain ⟨level,hlevel,hle⟩ := h
  rw [expand,hlevel]
  exact if_neg hle.not_gt

theorem Partly.toLayer {i : Nat} (h : idx.Partly i r) (hlayer : layer < r) :
    idx.Layer layer fun a => a < i ∧ idx.OnLayer layer a where
  lt _ ha := ha.1.trans h.lt
  expand c hc := by
    obtain ⟨l,hl⟩ := (h.shape c layer).2 hc.2
    exact ⟨l, by rw [expand_of_onLayer hc.2,hl], h.below c layer l hlayer hl⟩

theorem Partly.relinked {i : Nat} (h : idx.Partly i (layer + 1))
    (hre : Relinked idx idx' i layer selected) : idx'.Partly i layer where
  sized := hre.frame.sized h.sized
  f16 := hre.frame.flatVecsF16.trans h.f16
  lt := by
    rw [hre.frame.rowIds]
    exact h.lt
  shape a l := (hre.frame.shape a l).trans ((h.shape a l).trans hre.frame.onLayer.symm)
  below a layer' l hlt hl b hb := by
    rw [hre.frame.lists a layer' fun hc => hlt.ne hc.1] at hl
    have hb' := h.below a layer' l (by omega) hl b hb
    exact ⟨hb'.1, hre.frame.onLayer.2 hb'.2⟩
  reaches layer' hlt := hre.frame.onLayer.2 (h.reaches layer' (by omega))

/-- The layers below `r` are connected, from the highest one down. -/
inductive Rewired (i : Nat) : Nat → HnswIndex → HnswIndex → Prop
  | done (idx : HnswIndex) : Rewired i 0 idx idx
  | step {layer : Nat} {idx mid idx' : HnswIndex} {selected : List Nat}
      (h : Relinked idx mid i layer selected) (rest : Rewired i layer mid idx') :
      Rewired i (layer + 1) idx idx'

theorem chosen_of_select {i : Nat} {w : List (D × Nat)}
    (hw : idx.Ranked sp q (fun a => a < i ∧ idx.OnLayer layer a) w) (hne : w ≠ [])
    (h : selected.Subperm (w.map Prod.snd) ∧ selected.length ≤ maxLinks idx.config.m layer ∧
      (0 < maxLinks idx.config.m layer → w ≠ [] → selected ≠ [])) :
    idx.Chosen i layer selected where
  nodup := by
    obtain ⟨l,hperm,hsub⟩ := h.1
    exact hperm.nodup_iff.1 (hw.nodup.sublist hsub)
  mem b hb := by
    obtain ⟨e,he,rfl⟩ := mem_map.1 (h.1.subset hb)
    exact (hw.mem e he).1
  length := h.2.1
  nonempty hpos := h.2.2 hpos hne

theorem outcome_relink {i : Nat} (h : idx.Partly i (layer + 1))
    (hchosen : idx.Chosen i layer selected) (hcap : Affords rt F idx.config)
    (horder : OrdersStored rt F idx) : Outcome F (fun idx' => Relinked idx idx' i layer selected)
      (do let idx ← idx.setList i layer selected; selected.foldlM (linkBack rt i layer) idx) := by
  obtain ⟨old,hold⟩ := (h.shape i layer).2 (h.reaches layer (Nat.lt_succ_self layer))
  have hi : i ∉ selected := fun hmem => absurd (hchosen.mem i hmem).1 (lt_irrefl i)
  have hframe := frame_relist hold selected
  have hlist (nb : Nat) (hnb : nb ∈ selected) :
      (idx.relist i layer selected).list nb layer = idx.list nb layer :=
    list_relist_of_ne (.inl fun he : nb = i => hi (he ▸ hnb)) selected
  rw [setList_eq_ok hold]
  have hback := outcome_linkBacks (hframe.sized h.sized) hchosen.nodup h.lt (fun nb hnb => by
    obtain ⟨hlt,hon⟩ := hchosen.mem nb hnb
    obtain ⟨l,hl⟩ := (h.shape nb layer).2 hon
    refine ⟨hlt.trans h.lt, l, (hlist nb hnb).trans hl, fun b hb => ?_⟩
    exact (h.below nb layer l (Nat.lt_succ_self layer) hl b hb).1.trans h.lt) (hcap.links layer)
    (hframe.ordersStored horder)
  refine hback.mono fun idx' hidx' => ⟨hchosen, ?_, ?_, fun nb hnb l hl => ?_⟩
  · refine (hframe.trans hidx'.1).mono fun a layer' hc => ?_
    cases hc with
    | inl hc => exact ⟨hc.2, .inl hc.1⟩
    | inr hc => exact ⟨hc.1, .inr hc.2⟩
  · rw [hidx'.1.lists i layer fun hc => hi hc.2,list_relist_self hold]
  · exact hidx'.2 nb hnb l ((hlist nb hnb).trans hl)

section Connect

variable [DecidableEq D]

theorem outcome_connect {i r : Nat} {q : List F32} {eps : List Nat} (h : idx.Partly i r)
    (hne : eps ≠ []) (heps : ∀ e ∈ eps, e < i ∧ idx.OnLayer (r - 1) e)
    (hcap : Affords rt F idx.config) (horder : OrdersStored rt F idx)
    (hq : rt.Orders F (idx.Exact sp q)) :
    Outcome F (Rewired i r idx) (connect rt i q r eps idx) := by
  induction r generalizing idx eps with
  | zero => exact .done idx
  | succ layer ih =>
    unfold connect
    refine (outcome_searchLayer h.sized (h.toLayer (Nat.lt_succ_self layer)) heps
      (hcap.imp_right fun hc => ⟨hc.2.1,hc.2.2.1⟩)
      (hq.mono fun d hd => exact_of_attained h.f16 hd)).bind fun w hw => ?_
    have hselect := outcome_select rt h.sized (m := maxLinks idx.config.m layer)
      (fun e he => (hw.1.mem e he).1.1.trans h.lt) (hcap.links layer)
    refine hselect.bind fun selected hselected => ?_
    have hchosen := chosen_of_select hw.1 (hw.2 hne) hselected
    have hrelink := outcome_relink h hchosen hcap horder
    rw [← bind_assoc]
    refine hrelink.bind fun mid hmid => ?_
    refine (ih (h.relinked hmid) (by simpa using hw.2 hne) (fun e he => ?_) ?_
      (hmid.frame.ordersStored horder) ?_).mono fun idx' hrest => .step hmid hrest
    · obtain ⟨x,hx,rfl⟩ := mem_map.1 he
      obtain ⟨hlt,hon⟩ := (hw.1.mem x hx).1
      exact ⟨hlt, hmid.frame.onLayer.2 (hon.down (Nat.sub_le layer 1))⟩
    · rw [hmid.frame.config]
      exact hcap
    · rw [hmid.frame.exact]
      exact hq

end Connect

/-- A graph on the first `k` nodes: every node has the lists that its level calls for, and a link of a
layer goes to a node that reaches up to it. -/
structure Wired (idx : HnswIndex) (k : Nat) : Prop where
  sized : idx.Sized
  neighbors : idx.neighbors.length = idx.rowIds.length
  levels : idx.nodeLevels.length = idx.rowIds.length
  shape : ∀ a layer, (∃ l, idx.list a layer = .ok l) ↔ idx.OnLayer layer a
  links : ∀ a layer l, idx.list a layer = .ok l → ∀ b ∈ l, b < k ∧ idx.OnLayer layer b
  fresh : ∀ a layer l, k ≤ a → idx.list a layer = .ok l → l = []

/-- The entry point is one of the nodes and reaches up to the top layer. -/
def Entered (idx : HnswIndex) (k : Nat) : Prop :=
  ∀ ep, idx.entryPoint = some ep → ep < k ∧ idx.nodeLevels[ep]? = some idx.maxLayer

/-- No list names its own node or a node twice, or is too long. -/
def Tidy (idx : HnswIndex) : Prop :=
  ∀ a layer l, idx.list a layer = .ok l →
    l.Nodup ∧ a ∉ l ∧ l.length ≤ maxLinks idx.config.m layer

/-- The top layer is the largest level of the first `k` nodes. -/
def Topped (idx : HnswIndex) (k : Nat) : Prop :=
  (∀ j < k, ∀ level, idx.nodeLevels[j]? = some level → level ≤ idx.maxLayer) ∧
    (idx.entryPoint = none → k = 0)

theorem Wired.succ {k : Nat} (h : idx.Wired k) : idx.Wired (k + 1) where
  sized := h.sized
  neighbors := h.neighbors
  levels := h.levels
  shape := h.shape
  links a layer l hl b hb := ⟨Nat.lt_succ_of_lt (h.links a layer l hl b hb).1, (h.links a layer l hl b hb).2⟩
  fresh a layer l hk hl := h.fresh a layer l (Nat.le_of_succ_le hk) hl

theorem Wired.partly {i level : Nat} (h : idx.Wired i) (hf16 : idx.flatVecsF16 = none)
    (hi : i < idx.rowIds.length) (hlevel : idx.nodeLevels[i]? = some level) (hr : r ≤ level + 1) :
    idx.Partly i r where
  sized := h.sized
  f16 := hf16
  lt := hi
  shape := h.shape
  below a layer l _ hl := h.links a layer l hl
  reaches layer hlt := ⟨level, hlevel, by omega⟩

theorem Wired.toLayer {k : Nat} (h : idx.Wired k) (hk : k ≤ idx.rowIds.length) (layer : Nat) :
    idx.Layer layer fun a => a < k ∧ idx.OnLayer layer a where
  lt _ ha := ha.1.trans_le hk
  expand c hc := by
    obtain ⟨l,hl⟩ := (h.shape c layer).2 hc.2
    exact ⟨l, by rw [expand_of_onLayer hc.2,hl], h.links c layer l hl⟩

theorem Relinked.list_cases {i : Nat} (h : Relinked idx idx' i layer selected)
    (hshape : ∀ nb ∈ selected, ∃ old, idx.list nb layer = .ok old)
    (hl : idx'.list a layer = .ok l) : (a = i ∧ l = selected) ∨
      (a ∈ selected ∧ ∃ old, idx.list a layer = .ok old ∧ Extended idx.config.m layer i old l) ∨
        idx.list a layer = .ok l := by
  by_cases hai : a = i
  · subst hai
    rw [h.own] at hl
    cases hl
    exact .inl ⟨rfl,rfl⟩
  · by_cases ha : a ∈ selected
    · obtain ⟨old,hold⟩ := hshape a ha
      obtain ⟨l',hl',hext⟩ := h.back a ha old hold
      rw [hl'] at hl
      cases hl
      exact .inr (.inl ⟨ha,old,hold,hext⟩)
    · rw [h.frame.lists a layer fun hc => hc.2.elim hai ha] at hl
      exact .inr (.inr hl)

theorem Relinked.wired {i : Nat} (h : Relinked idx idx' i layer selected) (hidx : idx.Wired (i + 1))
    (hi : idx.OnLayer layer i) : idx'.Wired (i + 1) where
  sized := h.frame.sized hidx.sized
  neighbors := by rw [h.frame.length,h.frame.rowIds,hidx.neighbors]
  levels := by rw [h.frame.nodeLevels,h.frame.rowIds,hidx.levels]
  shape a l := (h.frame.shape a l).trans ((hidx.shape a l).trans h.frame.onLayer.symm)
  links a layer' l hl b hb := by
    rw [h.frame.onLayer]
    by_cases hlayer : layer' = layer
    · subst hlayer
      have hshape (nb : Nat) (hnb : nb ∈ selected) := (hidx.shape nb layer').2 (h.chosen.mem nb hnb).2
      obtain ⟨-,rfl⟩ | ⟨-,old,hold,hext⟩ | hsame := h.list_cases hshape hl
      · have hmem := h.chosen.mem b hb
        exact ⟨Nat.lt_succ_of_lt hmem.1, hmem.2⟩
      · cases mem_append.1 (hext.subperm.subset hb) with
        | inl hb => exact hidx.links a layer' old hold b hb
        | inr hb =>
          rw [mem_singleton.1 hb]
          exact ⟨Nat.lt_succ_self i, hi⟩
      · exact hidx.links a layer' l hsame b hb
    · rw [h.frame.lists a layer' fun hc => hlayer hc.1] at hl
      exact hidx.links a layer' l hl b hb
  fresh a layer' l hk hl := by
    rw [h.frame.lists a layer' fun hc => ?_] at hl
    · exact hidx.fresh a layer' l hk hl
    · cases hc.2 with
      | inl ha => omega
      | inr ha =>
        have := (h.chosen.mem a ha).1
        omega

theorem Relinked.tidy {i : Nat} (h : Relinked idx idx' i layer selected)
    (hshape : ∀ nb ∈ selected, ∃ old, idx.list nb layer = .ok old) (hidx : idx.Tidy)
    (hnew : ∀ a l, idx.list a layer = .ok l → i ∉ l) : idx'.Tidy := by
  intro a layer' l hl
  rw [h.frame.config]
  by_cases hlayer : layer' = layer
  · subst hlayer
    obtain ⟨rfl,rfl⟩ | ⟨ha,old,hold,hext⟩ | hsame := h.list_cases hshape hl
    · exact ⟨h.chosen.nodup, fun hmem => absurd (h.chosen.mem a hmem).1 (lt_irrefl a), h.chosen.length⟩
    · obtain ⟨hnodup,hself,-⟩ := hidx a layer' old hold
      exact hext.tidy hnodup hself (hnew a old hold) (h.chosen.mem a ha).1.ne
    · exact hidx a layer' l hsame
  · rw [h.frame.lists a layer' fun hc => hlayer hc.1] at hl
    exact hidx a layer' l hl

theorem Rewired.frame {i : Nat} (h : Rewired i r idx idx') : Frame idx idx' fun _ _ => True := by
  induction h with
  | done idx => exact (Frame.refl idx).mono fun _ _ h => h.elim
  | step h _ ih => exact (h.frame.trans ih).mono fun _ _ _ => trivial

theorem Rewired.wired {i : Nat} (h : Rewired i r idx idx') (hidx : idx.Wired (i + 1))
    (hi : ∀ layer < r, idx.OnLayer layer i) : idx'.Wired (i + 1) := by
  induction h with
  | done idx => exact hidx
  | @step layer _ _ _ _ h _ ih =>
    refine ih (h.wired hidx (hi layer (Nat.lt_succ_self layer))) fun layer' hlt => ?_
    exact h.frame.onLayer.2 (hi layer' (Nat.lt_succ_of_lt hlt))

theorem Rewired.tidy {i : Nat} (h : Rewired i r idx idx')
    (hshape : ∀ a layer, (∃ l, idx.list a layer = .ok l) ↔ idx.OnLayer layer a) (hidx : idx.Tidy)
    (hnew : ∀ a layer l, layer < r → idx.list a layer = .ok l → i ∉ l) : idx'.Tidy := by
  induction h with
  | done idx => exact hidx
  | @step layer idx mid _ selected h _ ih =>
    have hold (nb : Nat) (hnb : nb ∈ selected) := (hshape nb layer).2 (h.chosen.mem nb hnb).2
    refine ih (fun a l => ?_) (h.tidy hold hidx fun a l => hnew a layer l (Nat.lt_succ_self layer))
      fun a layer' l hlt hl => ?_
    · exact (h.frame.shape a l).trans ((hshape a l).trans h.frame.onLayer.symm)
    · rw [h.frame.lists a layer' fun hc => hlt.ne hc.1] at hl
      exact hnew a layer' l (Nat.lt_succ_of_lt hlt) hl

/-- All that inserting node `i` does. -/
inductive Inserted (i level : Nat) (idx : HnswIndex) : HnswIndex → Prop
  | first (h : idx.entryPoint = none) :
      Inserted i level idx { idx with entryPoint := some i, maxLayer := level }
  | later {ep : Nat} {mid : HnswIndex} (h : idx.entryPoint = some ep)
      (hmid : Rewired i (min level idx.maxLayer + 1) idx mid) :
      Inserted i level idx (mid.promote i level)

theorem outcome_insertAt [DecidableEq D] {i level : Nat} (h : idx.Wired i) (hentry : idx.Entered i)
    (hf16 : idx.flatVecsF16 = none) (hi : i < idx.rowIds.length)
    (hlevel : idx.nodeLevels[i]? = some level)
    (hsearch : idx.entryPoint ≠ none → Affords rt F idx.config ∧ OrdersStored rt F idx ∧
      rt.Orders F (idx.Exact sp q)) :
    Outcome F (Inserted i level idx) (idx.insertAt rt i level q) := by
  unfold insertAt
  split
  · rename_i hnone
    exact .first hnone
  · rename_i ep hep
    obtain ⟨hlt,hlevel'⟩ := hentry ep hep
    obtain ⟨hcap,horder,hq⟩ := hsearch (by rw [hep]; exact Option.some_ne_none ep)
    have hdescend : Outcome F _ (idx.descend rt q (level + 1) idx.maxLayer [ep]) :=
      outcome_descend (level + 1) idx.maxLayer (P := fun layer a => a < i ∧ idx.OnLayer layer a)
        h.sized (fun layer _ _ => h.toLayer hi.le layer)
        (fun layer a ha => ⟨ha.1, ha.2.down (Nat.le_succ layer)⟩) (cons_ne_nil ep [])
        (by simpa using ⟨hlt,idx.maxLayer,hlevel',le_rfl⟩) (hcap.imp_right And.left)
        (hq.mono fun d hd => exact_of_attained hf16 hd)
    refine hdescend.bind fun eps heps => ?_
    have hpartly := h.partly hf16 hi hlevel (r := min level idx.maxLayer + 1) (by omega)
    refine (outcome_connect hpartly heps.1 (fun e he => ?_) hcap horder hq).bind fun mid hmid => ?_
    · have hpos := heps.2 e he
      rw [show min idx.maxLayer (level + 1 - 1) = min level idx.maxLayer + 1 - 1 by omega] at hpos
      exact hpos
    · exact .later hep hmid

section Kept

variable {i level : Nat} (h : Inserted i level idx idx')
include h

theorem Inserted.fields : idx'.config = idx.config ∧ idx'.metric = idx.metric ∧
    idx'.dim = idx.dim ∧ idx'.flatVecs = idx.flatVecs ∧ idx'.flatVecsF16 = idx.flatVecsF16 ∧
      idx'.rowIds = idx.rowIds ∧ idx'.nodeLevels = idx.nodeLevels := by
  cases h with
  | first h => exact ⟨rfl,rfl,rfl,rfl,rfl,rfl,rfl⟩
  | later hep hmid =>
    have hframe := hmid.frame
    unfold promote
    split <;> rw [hframe.fields] <;> exact ⟨rfl,rfl,rfl,rfl,rfl,rfl,rfl⟩

theorem Inserted.wired (hidx : idx.Wired i) (hlevel : idx.nodeLevels[i]? = some level) :
    idx'.Wired (i + 1) := by
  cases h with
  | first h => exact ⟨⟨hidx.sized.flat,hidx.sized.f16⟩,hidx.neighbors,hidx.levels,hidx.shape,
      hidx.succ.links,hidx.succ.fresh⟩
  | later hep hmid =>
    have hwired := hmid.wired hidx.succ fun layer hlt => ⟨level, hlevel, by omega⟩
    unfold promote
    split
    · exact ⟨⟨hwired.sized.flat,hwired.sized.f16⟩,hwired.neighbors,hwired.levels,hwired.shape,
        hwired.links,hwired.fresh⟩
    · exact hwired

theorem Inserted.entered (hidx : idx.Entered i) (hlevel : idx.nodeLevels[i]? = some level) :
    idx'.Entered (i + 1) := by
  intro ep hep'
  cases h with
  | first h =>
    cases hep'
    exact ⟨Nat.lt_succ_self i, hlevel⟩
  | later hep hmid =>
    unfold promote at hep' ⊢
    split at hep' <;> rename_i hlt
    · cases hep'
      rw [if_pos hlt]
      exact ⟨Nat.lt_succ_self i, hmid.frame.nodeLevels ▸ hlevel⟩
    · rw [if_neg hlt]
      rw [hmid.frame.entryPoint] at hep'
      rw [hmid.frame.nodeLevels,hmid.frame.maxLayer]
      exact ⟨Nat.lt_succ_of_lt (hidx ep hep').1, (hidx ep hep').2⟩

theorem Inserted.tidy (hidx : idx.Wired i) (htidy : idx.Tidy) : idx'.Tidy := by
  cases h with
  | first h => exact htidy
  | later hep hmid =>
    have htidy' := hmid.tidy hidx.shape htidy fun a layer l _ hl hmem =>
      absurd (hidx.links a layer l hl i hmem).1 (lt_irrefl i)
    unfold promote
    split
    · exact htidy'
    · exact htidy'

theorem Inserted.topped (hidx : idx.Topped i) (hlevel : idx.nodeLevels[i]? = some level) :
    idx'.Topped (i + 1) := by
  -- a level is the new node's or that of a node before it
  have hsplit (top : Nat) (hnew : level ≤ top) (hold : i = 0 ∨ idx.maxLayer ≤ top) (j : Nat)
      (hj : j < i + 1) (l : Nat) (hl : idx.nodeLevels[j]? = some l) : l ≤ top := by
    by_cases hji : j = i
    · subst hji
      rw [hlevel] at hl
      cases hl
      exact hnew
    · have hle := hidx.1 j (by omega) l hl
      omega
  cases h with
  | first h => exact ⟨hsplit level le_rfl (.inl (hidx.2 h)), fun hnone => nomatch hnone⟩
  | later hep hmid =>
    unfold promote
    split <;> rename_i hlt
    · refine ⟨?_, fun hnone => nomatch hnone⟩
      rw [hmid.frame.maxLayer] at hlt
      rw [hmid.frame.nodeLevels]
      exact hsplit level le_rfl (.inr hlt.le)
    · rw [Topped,hmid.frame.nodeLevels,hmid.frame.maxLayer,hmid.frame.entryPoint,hep]
      rw [hmid.frame.maxLayer] at hlt
      exact ⟨hsplit idx.maxLayer (Nat.le_of_not_lt hlt) (.inr le_rfl), fun hnone => nomatch hnone⟩

end Kept

/-! `insert_node`: a node is appended and then inserted. -/

section Append

variable (rowId : UInt64) (level : Nat) {v : List F32}

theorem list_append {a layer : Nat} {l : List Nat} (h : idx.neighbors.length = idx.rowIds.length) :
    (idx.append rowId level v).list a layer = .ok l ↔ idx.list a layer = .ok l ∨
      (a = idx.rowIds.length ∧ layer ≤ level ∧ l = []) := by
  simp only [list_eq_ok,append]
  by_cases ha : a < idx.neighbors.length
  · rw [getElem?_append_left ha]
    have hne : a ≠ idx.rowIds.length := by omega
    simp [hne]
  · rw [getElem?_append_right (Nat.le_of_not_lt ha),getElem?_eq_none (Nat.le_of_not_lt ha)]
    by_cases heq : a = idx.rowIds.length
    · rw [heq,h,Nat.sub_self]
      simp only [getElem?_cons_zero,Option.some.injEq,exists_eq_left',reduceCtorEq,false_and,
        exists_false,true_and,false_or,getElem?_replicate]
      constructor
      · intro hl
        split at hl
        · exact ⟨by omega, (Option.some.inj hl).symm⟩
        · cases hl
      · intro hl
        rw [if_pos (by omega),hl.2]
    · have hsub : 1 ≤ a - idx.neighbors.length := by omega
      rw [getElem?_eq_none (by simpa using hsub)]
      simp [heq]

theorem onLayer_append {a layer : Nat} (h : idx.nodeLevels.length = idx.rowIds.length) :
    (idx.append rowId level v).OnLayer layer a ↔ idx.OnLayer layer a ∨
      (a = idx.rowIds.length ∧ layer ≤ level) := by
  simp only [OnLayer,append]
  by_cases ha : a < idx.nodeLevels.length
  · rw [getElem?_append_left ha]
    have hne : a ≠ idx.rowIds.length := by omega
    simp [hne]
  · rw [getElem?_append_right (Nat.le_of_not_lt ha),getElem?_eq_none (Nat.le_of_not_lt ha)]
    by_cases heq : a = idx.rowIds.length
    · rw [heq,h,Nat.sub_self]
      simp
    · have hsub : 1 ≤ a - idx.nodeLevels.length := by omega
      rw [getElem?_eq_none (by simpa using hsub)]
      simp [heq]

theorem Wired.append (h : idx.Wired idx.rowIds.length)
    (hv : v.length = idx.dim) : (idx.append rowId level v).Wired idx.rowIds.length where
  sized := by
    refine ⟨?_, fun _ hf16 => nomatch hf16⟩
    simp only [HnswIndex.append,length_append,length_singleton,h.sized.flat,hv]
    ring
  neighbors := by simp [HnswIndex.append,h.neighbors]
  levels := by simp [HnswIndex.append,h.levels]
  shape a layer := by
    rw [onLayer_append rowId level h.levels,← h.shape]
    constructor
    · intro hl
      obtain ⟨l,hl⟩ := hl
      exact ((list_append rowId level h.neighbors).1 hl).imp (fun hl => ⟨l,hl⟩) fun hl => ⟨hl.1,hl.2.1⟩
    · intro hl
      cases hl with
      | inl hl => exact hl.imp fun l hl => (list_append rowId level h.neighbors).2 (.inl hl)
      | inr hl => exact ⟨[], (list_append rowId level h.neighbors).2 (.inr ⟨hl.1,hl.2,rfl⟩)⟩
  links a layer l hl b hb := by
    rw [onLayer_append rowId level h.levels]
    cases (list_append rowId level h.neighbors).1 hl with
    | inl hl =>
      have hlink := h.links a layer l hl b hb
      exact ⟨hlink.1, .inl hlink.2⟩
    | inr hl =>
      rw [hl.2.2] at hb
      cases hb
  fresh a layer l hk hl := by
    cases (list_append rowId level h.neighbors).1 hl with
    | inl hl => exact h.fresh a layer l hk hl
    | inr hl => exact hl.2.2

theorem nodeLevels_append (v : List F32) (h : idx.nodeLevels.length = idx.rowIds.length) :
    (idx.append rowId level v).nodeLevels[idx.rowIds.length]? = some level := by
  simp [append,← h]

theorem Entered.append (v : List F32) (h : idx.Entered idx.rowIds.length)
    (hlen : idx.nodeLevels.length = idx.rowIds.length) :
    (idx.append rowId level v).Entered idx.rowIds.length := by
  intro ep hep
  obtain ⟨hlt,hlevel⟩ := h ep hep
  refine ⟨hlt,?_⟩
  simp only [HnswIndex.append]
  rw [getElem?_append_left (by omega)]
  exact hlevel

theorem vector_append (h : idx.Sized) (hv : v.length = idx.dim) :
    (idx.append rowId level v).vector idx.rowIds.length = .ok v := by
  refine checked_eq_ok.2 ?_
  show slice (idx.flatVecs ++ v) (idx.rowIds.length * idx.dim) ((idx.rowIds.length + 1) * idx.dim) = _
  have hend : (idx.rowIds.length + 1) * idx.dim = idx.flatVecs.length + v.length := by
    rw [h.flat,hv]
    ring
  rw [slice,if_pos ⟨by rw [hend,h.flat]; omega, by rw [hend,length_append]⟩,hend,← h.flat,
    drop_left,Nat.add_sub_cancel_left,take_length]

theorem length_stored (v : List F32) : (idx.stored sp v).length = v.length := by
  unfold stored
  split
  · exact sp.length_normalizeL2 v
  · rfl

variable {rowId level}

theorem outcome_insertNode [DecidableEq D] (h : idx.Wired idx.rowIds.length)
    (hentry : idx.Entered idx.rowIds.length) (hv : v.length = idx.dim)
    (hlists : F .capacity ∨ 24 * (level + 1) ≤ rt.limit)
    (hsearch : idx.entryPoint ≠ none → Affords rt F idx.config ∧
      OrdersStored rt F (idx.append rowId level (idx.stored sp v))) :
    Outcome F (Inserted idx.rowIds.length level (idx.append rowId level (idx.stored sp v)))
      (idx.insertNode rt rowId v level) := by
  have hlen : (idx.stored sp v).length = idx.dim := (length_stored v).trans hv
  refine (outcome_reserve hlists).bind fun _ _ => ?_
  refine outcome_insertAt (h.append rowId level hlen) (hentry.append rowId level _ h.levels) rfl
    (by simp [append]) (nodeLevels_append rowId level _ h.levels) fun hne => ?_
  obtain ⟨hcap,horder⟩ := hsearch hne
  exact ⟨hcap, horder, horder _ _ (vector_append rowId level h.sized hlen)⟩

theorem Inserted.rowIds_append {idx' : HnswIndex}
    (h : Inserted idx.rowIds.length level (idx.append rowId level v) idx') :
    idx'.rowIds = idx.rowIds ++ [rowId] := by
  rw [h.fields.2.2.2.2.2.1]
  rfl

theorem Inserted.wired_append {idx' : HnswIndex}
    (h : Inserted idx.rowIds.length level (idx.append rowId level v) idx')
    (hidx : idx.Wired idx.rowIds.length) (hentry : idx.Entered idx.rowIds.length)
    (hv : v.length = idx.dim) :
    idx'.Wired idx'.rowIds.length ∧ idx'.Entered idx'.rowIds.length := by
  have hlevel := nodeLevels_append rowId level v hidx.levels
  have hwired := h.wired (hidx.append rowId level hv) hlevel
  have hentered := h.entered (hentry.append rowId level v hidx.levels) hlevel
  rw [h.rowIds_append,length_append,length_singleton]
  exact ⟨hwired,hentered⟩

end Append

end HnswIndex
end AiLake.Hnsw
