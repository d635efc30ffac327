import AiLake.Hnsw

/-! What the steps of a search come to: distances, the search of a layer, the descent, the choice of
the best. `F` are the admitted faults. -/
namespace AiLake.Hnsw

open BestFirst Checked List

variable {D : Type} {sp : Space D} {rt : Runtime sp} {F : Fault → Prop} {S : D → Prop}

/-- A runtime whose sorts follow the strict order as far as it goes. -/
def Runtime.standard (sp : Space D) (limit : Nat) : Runtime sp where
  limit := limit
  heaps := .ofOrder sp.irrefl sp.trans
  sort l := some (l.insertionSort fun a b => sp.lt a.1 b.1)
  selectNth _ l := some (l.insertionSort fun a b => sp.lt a.2 b.2)
  sortHits l := some (l.insertionSort fun a b => sp.lt a.2 b.2)
  fork := .leaf
  sort_perm := by
    intro l r h
    cases h
    exact perm_insertionSort _ l
  sort_ordered := by
    intro l _
    exact ⟨_, rfl, pairwise_insertionSort (r := fun a b : D × Nat => sp.lt a.1 b.1)
      (fun a => sp.irrefl a.1) (fun a b c => sp.trans a.1 b.1 c.1) l⟩
  selectNth_perm := by
    intro k l r h
    cases h
    exact perm_insertionSort _ l
  selectNth_ordered := by
    intro k l _
    have hsorted := pairwise_insertionSort (r := fun a b : Hit D => sp.lt a.2 b.2)
      (fun a => sp.irrefl a.2) (fun a b c => sp.trans a.2 b.2 c.2) l
    rw [← take_append_drop k (l.insertionSort _), pairwise_append] at hsorted
    exact ⟨_, rfl, hsorted.2.2⟩
  sortHits_perm := by
    intro l r h
    cases h
    exact perm_insertionSort _ l
  sortHits_ordered := by
    intro l _
    exact ⟨_, rfl, pairwise_insertionSort (r := fun a b : Hit D => sp.lt a.2 b.2)
      (fun a => sp.irrefl a.2) (fun a b c => sp.trans a.2 b.2 c.2) l⟩
  size_fork _ := rfl

theorem outcome_checked {α : Type} {fault : Fault} {Q : α → Prop} {x : Option α}
    (hF : x = none → F fault) (hQ : ∀ a, x = some a → Q a) : Outcome F Q (checked fault x) := by
  cases x with
  | none => exact hF rfl
  | some a => exact hQ a rfl

theorem checked_eq_ok {α : Type} {fault : Fault} {x : Option α} {a : α} :
    checked fault x = .ok a ↔ x = some a := by
  cases x with
  | none => simp [checked]
  | some b => simp [checked]

theorem outcome_reserve {bytes : Nat} (h : F .capacity ∨ bytes ≤ rt.limit) :
    Outcome F (fun _ => True) (rt.reserve bytes) := by
  unfold Runtime.reserve
  split
  · exact trivial
  · rename_i hlt
    exact h.resolve_right hlt

/-- A sort of distances among `S` panics only if that is admitted. -/
structure Runtime.Orders (rt : Runtime sp) (F : Fault → Prop) (S : D → Prop) : Prop where
  sort : ∀ l, (∀ e ∈ l, S e.1) → rt.sort l = none → F .order
  selectNth : ∀ k l, (∀ e ∈ l, S e.2) → rt.selectNth k l = none → F .order
  sortHits : ∀ l, (∀ e ∈ l, S e.2) → rt.sortHits l = none → F .order

theorem orders_of_fault (h : F .order) : rt.Orders F S :=
  ⟨fun _ _ _ => h, fun _ _ _ _ => h, fun _ _ _ => h⟩

theorem Runtime.Orders.mono {S' : D → Prop} (h : rt.Orders F S) (hS : ∀ d, S' d → S d) :
    rt.Orders F S' where
  sort l hl := h.sort l fun e he => hS e.1 (hl e he)
  selectNth k l hl := h.selectNth k l fun e he => hS e.2 (hl e he)
  sortHits l hl := h.sortHits l fun e he => hS e.2 (hl e he)

/-- The distances among `S` compare like numbers. -/
def Comparable (sp : Space D) (S : D → Prop) : Prop := ∀ ds, (∀ d ∈ ds, S d) → Consistent sp.lt ds

theorem Comparable.orders (h : Comparable sp S) : rt.Orders F S where
  sort l hl hnone := by
    obtain ⟨r,hr,-⟩ := rt.sort_ordered (h (l.map Prod.fst) (by simpa using fun a b hab => hl (a, b) hab))
    rw [hnone] at hr
    cases hr
  selectNth k l hl hnone := by
    obtain ⟨r,hr,-⟩ := @Runtime.selectNth_ordered _ _ rt k l
      (h (l.map Prod.snd) (by simpa using fun a b hab => hl (b, a) hab))
    rw [hnone] at hr
    cases hr
  sortHits l hl hnone := by
    obtain ⟨r,hr,-⟩ := rt.sortHits_ordered (h (l.map Prod.snd) (by simpa using fun a b hab => hl (b, a) hab))
    rw [hnone] at hr
    cases hr

theorem comparable_of_linear [LinearOrder D] (hlt : ∀ a b, sp.lt a b ↔ a < b) (S : D → Prop) :
    Comparable sp S := by
  intro ds _ a _ b _ c _ hab
  rw [hlt] at hab ⊢
  rw [hlt]
  exact (lt_or_ge a c).imp_right fun hca => hca.trans_lt hab

theorem outcome_sort {l : List (D × Nat)} (h : rt.Orders F S) (hl : ∀ e ∈ l, S e.1) :
    Outcome F (fun r => r.Perm l) (checked .order (rt.sort l)) :=
  outcome_checked (h.sort l hl) fun _ hr => rt.sort_perm hr

theorem outcome_selectTopK {results : List (Hit D)} (h : rt.Orders F S)
    (hresults : ∀ e ∈ results, S e.2) (k : Nat) :
    Outcome F (fun r => r.length ≤ k ∧ (∀ e ∈ r, e ∈ results) ∧
      (results.length ≤ k → r.Perm results)) (selectTopK rt results k) := by
  unfold selectTopK
  split
  · rename_i hk
    refine ⟨by simp, nofun, fun hlen => ?_⟩
    rw [length_eq_zero_iff.1 (by omega : results.length = 0)]
  · have htruncated : Outcome F (fun r => r.length ≤ k ∧ (∀ e ∈ r, e ∈ results) ∧
        (results.length ≤ k → r = results)) (truncated rt results k) := by
      unfold truncated
      split
      · rename_i hlen
        refine (outcome_checked (h.selectNth k results hresults) fun r hr => rt.selectNth_perm hr).bind
          fun r hr => ⟨length_take_le k r, fun e he => ?_, fun hle => by omega⟩
        exact hr.mem_iff.1 (mem_of_mem_take he)
      · rename_i hlen
        exact ⟨Nat.le_of_not_lt hlen, fun _ he => he, fun _ => rfl⟩
    refine htruncated.bind fun r hr => ?_
    refine outcome_checked (h.sortHits r fun e he => hresults e (hr.2.1 e he)) fun t ht => ?_
    have hperm := rt.sortHits_perm ht
    exact ⟨hperm.length_eq ▸ hr.1, fun e he => hr.2.1 e (hperm.mem_iff.1 he),
      fun hlen => hr.2.2 hlen ▸ hperm⟩

namespace HnswIndex

structure Sized (idx : HnswIndex) : Prop where
  flat : idx.flatVecs.length = idx.rowIds.length * idx.dim
  f16 : ∀ f16s, idx.flatVecsF16 = some f16s → f16s.length = idx.rowIds.length * idx.dim

variable {idx : HnswIndex} {q : List F32}

theorem exists_slice {α : Type} {l : List α} {n dim i : Nat} (hl : l.length = n * dim) (hi : i < n) :
    ∃ v, slice l (i * dim) ((i + 1) * dim) = some v := by
  refine Option.isSome_iff_exists.1 (isSome_slice.2 ⟨?_,?_⟩)
  · exact Nat.mul_le_mul_right dim (Nat.le_succ i)
  · rw [hl]
    exact Nat.mul_le_mul_right dim hi

theorem Sized.exists_vector (h : idx.Sized) {i : Nat} (hi : i < idx.rowIds.length) :
    ∃ v, idx.vector i = .ok v := by
  obtain ⟨v,hv⟩ := exists_slice h.flat hi
  exact ⟨v, checked_eq_ok.2 hv⟩

theorem Sized.exists_distance (sp : Space D) (h : idx.Sized) (q : List F32) {i : Nat}
    (hi : i < idx.rowIds.length) : ∃ d, idx.distance sp q i = .ok d := by
  unfold distance
  rw [if_neg hi.not_ge]
  split
  · rename_i f16s hf16
    obtain ⟨v,hv⟩ := exists_slice (h.f16 f16s hf16) hi
    exact ⟨sp.distF16 idx.metric q v, by rw [vectorF16,hv]; rfl⟩
  · obtain ⟨v,hv⟩ := h.exists_vector hi
    exact ⟨sp.dist idx.metric q v, by rw [hv]; rfl⟩

theorem lt_of_distance {i : Nat} {d : D} (h : idx.distance sp q i = .ok d) :
    i < idx.rowIds.length := by
  by_contra hge
  rw [distance,if_pos (Nat.le_of_not_lt hge)] at h
  cases h

variable (sp) in
/-- The distances of `q` on the way through the graph. -/
def Attained (idx : HnswIndex) (q : List F32) (d : D) : Prop := ∃ i, idx.distance sp q i = .ok d

variable (sp) in
/-- The exact distances of `q` to the stored vectors. -/
def Exact (idx : HnswIndex) (q : List F32) (d : D) : Prop :=
  ∃ i v, idx.vector i = .ok v ∧ sp.dist idx.metric q v = d

variable (sp) in
structure Ranked (idx : HnswIndex) (q : List F32) (P : Nat → Prop) (w : List (D × Nat)) : Prop where
  mem : ∀ e ∈ w, P e.2 ∧ idx.distance sp q e.2 = .ok e.1
  nodup : (w.map Prod.snd).Nodup

/-- The lists of the nodes of a layer can be read and stay within the layer. -/
structure Layer (idx : HnswIndex) (layer : Nat) (P : Nat → Prop) : Prop where
  lt : ∀ i, P i → i < idx.rowIds.length
  expand : ∀ c, P c → ∃ nbs, idx.expand layer c = .ok nbs ∧ ∀ nb ∈ nbs, P nb

variable [DecidableEq D] {P : Nat → Prop} {layer ef : Nat} {eps : List Nat}

theorem Layer.search_sound (hidx : idx.Sized) (hlayer : idx.Layer layer P) (heps : ∀ i ∈ eps, P i)
    (rt : Runtime sp) (q : List F32) (ef : Nat) :
    ∃ s t, eps.foldlM (Frontier.enter (idx.distance sp q)) .empty = .ok s ∧
      Frontier.explore rt.heaps sp.infinity (idx.distance sp q) (idx.expand layer) .stuck ef
        idx.rowIds.length s = .ok t ∧
      Frontier.Sound (idx.distance sp q) P t ∧ s.visited ⊆ t.visited ∧
        (eps ≠ [] → t.found ≠ []) := by
  have hsearch := Frontier.search_sound rt.heaps sp.infinity Fault.stuck ef
    (fun i hi => mem_range.2 (hlayer.lt i hi))
    (fun i hi => hidx.exists_distance sp q (hlayer.lt i hi)) hlayer.expand heps
  rwa [length_range] at hsearch

omit [DecidableEq D] in
theorem ranked_of_perm {t : Frontier D Nat} {w : List (D × Nat)}
    (ht : Frontier.Sound (idx.distance sp q) P t) (hw : w.Perm t.found) : idx.Ranked sp q P w where
  mem e he :=
    have hmem := ht.found e (hw.mem_iff.1 he)
    ⟨ht.known _ hmem.1, hmem.2⟩
  nodup := (hw.map Prod.snd).nodup_iff.2 ht.distinct

theorem outcome_searchLayer (hidx : idx.Sized) (hlayer : idx.Layer layer P) (heps : ∀ i ∈ eps, P i)
    (hcap : F .capacity ∨ 16 * (ef * 2) ≤ rt.limit ∧ 16 * (ef + 1) ≤ rt.limit)
    (horder : rt.Orders F (idx.Attained sp q)) :
    Outcome F (fun w => idx.Ranked sp q P w ∧ (eps ≠ [] → w ≠ []))
      (idx.searchLayer rt q eps ef layer) := by
  unfold searchLayer
  refine (outcome_reserve (hcap.imp_right And.left)).bind fun _ _ =>
    (outcome_reserve (hcap.imp_right And.right)).bind fun _ _ => ?_
  obtain ⟨s,t,hs,ht,hsound,-,hne⟩ := hlayer.search_sound hidx heps rt q ef
  simp only [hs,ht,bind,Except.bind]
  have hsorted := outcome_sort horder fun e he => ⟨e.2, (hsound.found e he).2⟩
  refine hsorted.mono fun w hw => ⟨ranked_of_perm hsound hw, fun heps hnil => hne heps ?_⟩
  exact length_eq_zero_iff.1 (by rw [← hw.length_eq,hnil]; rfl)

theorem searchLayer_full {w : List (D × Nat)} (hidx : idx.Sized) (hlayer : idx.Layer layer P)
    (heps : ∀ i ∈ eps, P i) (hef : idx.rowIds.length ≤ ef)
    (hfar : ∀ l e, rt.heaps.farthest l = some e → (∀ x ∈ l, idx.distance sp q x.2 = .ok x.1) →
      ∀ x ∈ l, ¬sp.lt e.1 x.1)
    (h : idx.searchLayer rt q eps ef layer = .ok w) {a b : Nat} (ha : a ∈ eps)
    (hab : Relation.ReflTransGen (fun x y => ∃ nbs, idx.expand layer x = .ok nbs ∧ y ∈ nbs) a b) :
    ∃ d, (d, b) ∈ w := by
  obtain ⟨s,t,hs,ht,-,hvisited,-⟩ := hlayer.search_sound hidx heps rt q ef
  obtain ⟨_,-,h⟩ := bind_eq_ok.1 h
  obtain ⟨_,-,h⟩ := bind_eq_ok.1 h
  simp only [hs,ht,bind,Except.bind] at h
  have hfull := Frontier.search_full (fun i hi => mem_range.2 (hlayer.lt i hi))
    (fun i hi => hidx.exists_distance sp q (hlayer.lt i hi)) hlayer.expand heps
    (by rwa [length_range]) (fun l e hl hx => hfar l e hl fun x hxl => (hx x hxl).2) hs ht ha hab
    hvisited
  obtain ⟨d,hd⟩ := hfull
  exact ⟨d, (rt.sort_perm (checked_eq_ok.1 h)).mem_iff.2 hd⟩

omit [DecidableEq D] in
theorem Ranked.length_le {w : List (D × Nat)} (h : idx.Ranked sp q P w) :
    w.length ≤ idx.rowIds.length := by
  have hsub : w.map Prod.snd ⊆ List.range idx.rowIds.length := by
    intro i hi
    obtain ⟨e,he,rfl⟩ := mem_map.1 hi
    exact mem_range.2 (lt_of_distance (h.mem e he).2)
  simpa using (subperm_of_subset h.nodup hsub).length_le

theorem outcome_descend (lo hi : Nat) {P : Nat → Nat → Prop} (hidx : idx.Sized)
    (hlayer : ∀ layer, lo ≤ layer → layer ≤ hi → idx.Layer layer (P layer))
    (hdown : ∀ layer i, P (layer + 1) i → P layer i) (hne : eps ≠ []) (heps : ∀ i ∈ eps, P hi i)
    (hcap : F .capacity ∨ 32 ≤ rt.limit) (horder : rt.Orders F (idx.Attained sp q)) :
    Outcome F (fun eps' => eps' ≠ [] ∧ ∀ i ∈ eps', P (min hi (lo - 1)) i)
      (idx.descend rt q lo hi eps) := by
  induction hi generalizing eps with
  | zero => exact ⟨hne, by simpa using heps⟩
  | succ hi ih =>
    unfold descend
    split
    · rename_i hlo
      have hsearch : Outcome F (fun w => idx.Ranked sp q (P (hi + 1)) w ∧ (eps ≠ [] → w ≠ []))
          (idx.searchLayer rt q eps 1 (hi + 1)) :=
        outcome_searchLayer hidx (hlayer (hi + 1) hlo le_rfl) heps (by simpa using hcap) horder
      refine hsearch.bind fun w hw => ?_
      refine (outcome_checked (Q := fun e => e ∈ w) (fun hnone => ?_)
        fun e he => mem_of_mem_head? he).bind fun e he => ?_
      · exact absurd (head?_eq_none_iff.1 hnone) (hw.2 hne)
      · have hnext := ih (fun layer hlo hhi => hlayer layer hlo (by omega)) (cons_ne_nil e.2 [])
          (by simpa using hdown hi e.2 (hw.1.mem e he).1)
        refine hnext.mono fun eps' heps' => ⟨heps'.1,?_⟩
        rw [show min (hi + 1) (lo - 1) = min hi (lo - 1) by omega]
        exact heps'.2
    · rename_i hlo
      refine ⟨hne,?_⟩
      rw [show min (hi + 1) (lo - 1) = hi + 1 by omega]
      exact heps

/-- What every index has: its vectors are there, its entry point is a node, and the lists that the
levels call for hold nodes. -/
structure Formed (idx : HnswIndex) : Prop where
  sized : idx.Sized
  entry : ∀ ep, idx.entryPoint = some ep → ep < idx.rowIds.length
  lists : idx.neighbors ≠ [] → ∀ c level layer, idx.nodeLevels[c]? = some level → layer ≤ level →
    ∃ nbs, idx.list c layer = .ok nbs ∧ ∀ nb ∈ nbs, nb < idx.rowIds.length

theorem Formed.toLayer (h : idx.Formed) (hne : idx.neighbors ≠ []) (layer : Nat) :
    idx.Layer layer (· < idx.rowIds.length) where
  lt _ hi := hi
  expand c hc := by
    unfold HnswIndex.expand
    split
    · exact ⟨[],rfl,nofun⟩
    · rename_i level hlevel
      split
      · exact ⟨[],rfl,nofun⟩
      · rename_i hle
        obtain ⟨nbs,hnbs,hlt⟩ := h.lists hne c level layer hlevel (Nat.le_of_not_lt hle)
        exact ⟨nbs,hnbs,hlt⟩

def Linked (idx : HnswIndex) (a b : Nat) : Prop := ∃ nbs, idx.expand 0 a = .ok nbs ∧ b ∈ nbs

variable (sp) in
/-- A node that a search can come to: all of them without a graph, else what can be reached on the
lowest layer from where a descent ends. -/
def Candidate (idx : HnswIndex) (q : List F32) (i : Nat) : Prop :=
  i < idx.rowIds.length ∧ (idx.neighbors = [] ∨ ∃ (rt : Runtime sp) (ep : Nat) (eps : List Nat),
    idx.entryPoint = some ep ∧ idx.descend rt q 1 idx.maxLayer [ep] = .ok eps ∧
      ∃ e ∈ eps, Relation.ReflTransGen idx.Linked e i)

def RowsOf (idx : HnswIndex) (Q : Nat → Prop) (hits : List (Hit D)) : Prop :=
  ∀ h ∈ hits, ∃ i, Q i ∧ idx.rowIds[i]? = some h.1

omit [DecidableEq D] in
theorem outcome_hits (l : List (D × Nat)) (hl : ∀ e ∈ l, e.2 < idx.rowIds.length) :
    Outcome F (List.Forall₂ (fun (e : D × Nat) (h : Hit D) =>
      idx.rowIds[e.2]? = some h.1 ∧ h.2 = e.1) l) (l.mapM idx.hit) := by
  refine Outcome.mapM fun e he => ?_
  rw [hit,getElem?_eq_getElem (hl e he)]
  exact ⟨rfl,rfl⟩

theorem outcome_hnswSearch (hidx : idx.Formed) (hne : idx.neighbors ≠ []) {topK : Nat}
    (hcap : F .capacity ∨ 32 ≤ rt.limit ∧ 16 * (max ef topK * 2) ≤ rt.limit ∧
      16 * (max ef topK + 1) ≤ rt.limit) (horder : rt.Orders F (idx.Attained sp q)) :
    Outcome F (fun hits => hits.length ≤ topK ∧ idx.RowsOf (idx.Candidate sp q) hits)
      (idx.hnswSearchTyped rt q topK ef) := by
  unfold hnswSearchTyped
  split
  · exact ⟨by simp, nofun⟩
  · rename_i ep hep
    have hdescend := outcome_descend 1 idx.maxLayer (P := fun _ i => i < idx.rowIds.length)
      hidx.sized (fun layer _ _ => hidx.toLayer hne layer) (fun _ _ h => h) (cons_ne_nil ep [])
      (by simpa using hidx.entry ep hep) (hcap.imp_right And.left) horder
    refine hdescend.self.bind fun eps heps => ?_
    -- everything that the last search can come to is a candidate
    have hlayer : idx.Layer 0 (idx.Candidate sp q) := by
      refine ⟨fun i hi => hi.1, fun c hc => ?_⟩
      obtain ⟨nbs,hnbs,hlt⟩ := (hidx.toLayer hne 0).expand c hc.1
      refine ⟨nbs, hnbs, fun nb hnb => ⟨hlt nb hnb, .inr ?_⟩⟩
      obtain ⟨rt',ep',eps',hep',heps',e,he,hreach⟩ := hc.2.resolve_left hne
      exact ⟨rt', ep', eps', hep', heps', e, he, hreach.tail ⟨nbs,hnbs,hnb⟩⟩
    have hstart : ∀ i ∈ eps, idx.Candidate sp q i := fun i hi =>
      ⟨heps.1.2 i hi, .inr ⟨rt,ep,eps,hep,heps.2,i,hi,.refl⟩⟩
    refine (outcome_searchLayer hidx.sized hlayer hstart (hcap.imp_right And.right) horder).bind
      fun w hw => ?_
    have hhits := outcome_hits (F := F) (w.take topK) fun e he => (hw.1.mem e (mem_of_mem_take he)).1.1
    refine hhits.mono fun hits hrel => ⟨hrel.length_eq ▸ length_take_le topK w, fun h hh => ?_⟩
    obtain ⟨e,he,hrow,-⟩ := exists_of_mem_right hrel hh
    exact ⟨e.2, (hw.1.mem e (mem_of_mem_take he)).1, hrow⟩

omit [DecidableEq D] in
theorem Sized.exists_row (sp : Space D) (h : idx.Sized) (q : List F32) {i : Nat}
    (hi : i < idx.rowIds.length) : ∃ hit, idx.row sp q i = .ok hit ∧
      idx.rowIds[i]? = some hit.1 ∧ idx.Exact sp q hit.2 := by
  obtain ⟨v,hv⟩ := h.exists_vector hi
  refine ⟨(idx.rowIds[i], sp.dist idx.metric q v), ?_, getElem?_eq_getElem hi, i, v, hv, rfl⟩
  rw [row,hv,getElem?_eq_getElem hi]
  rfl

variable (sp) in
/-- Hits of the rows from `start` on, `len` of them at most, and all of those while there is room. -/
structure Scanned (idx : HnswIndex) (q : List F32) (topK start len : Nat) (hits : List (Hit D)) :
    Prop where
  rows : ∀ h ∈ hits, ∃ i < idx.rowIds.length, idx.row sp q i = .ok h
  length : hits.length ≤ len
  all : len ≤ topK → ∀ i, start ≤ i → i < start + len → ∃ h ∈ hits, idx.row sp q i = .ok h

variable {topK start len : Nat} {hits : List (Hit D)}

omit [DecidableEq D] in
theorem Scanned.exact (hidx : idx.Sized) (h : idx.Scanned sp q topK start len hits) :
    ∀ e ∈ hits, idx.Exact sp q e.2 := by
  intro e he
  obtain ⟨i,hi,hrow⟩ := h.rows e he
  obtain ⟨hit,hhit,-,hexact⟩ := hidx.exists_row sp q hi
  rw [hrow] at hhit
  cases hhit
  exact hexact

omit [DecidableEq D] in
theorem Scanned.of_select {r : List (Hit D)} (h : idx.Scanned sp q topK start len hits)
    (hr : r.length ≤ topK ∧ (∀ e ∈ r, e ∈ hits) ∧ (hits.length ≤ topK → r.Perm hits)) :
    idx.Scanned sp q topK start len r := by
  refine ⟨fun e he => h.rows e (hr.2.1 e he), ?_, fun hlen i hi hlt => ?_⟩
  · by_cases hle : hits.length ≤ topK
    · rw [(hr.2.2 hle).length_eq]
      exact h.length
    · have := hr.1
      have := h.length
      omega
  · obtain ⟨e,he,hrow⟩ := h.all hlen i hi hlt
    exact ⟨e, (hr.2.2 (h.length.trans hlen)).mem_iff.2 he, hrow⟩

omit [DecidableEq D] in
theorem Scanned.outcome_select (hidx : idx.Sized) (h : idx.Scanned sp q topK start len hits)
    (horder : rt.Orders F (idx.Exact sp q)) :
    Outcome F (idx.Scanned sp q topK start len) (selectTopK rt hits topK) :=
  (outcome_selectTopK horder (h.exact hidx) topK).mono fun _ hr => h.of_select hr

omit [DecidableEq D] in
theorem Scanned.push {h : Hit D} (hs : idx.Scanned sp q topK start len hits)
    (hlt : start + len < idx.rowIds.length) (hrow : idx.row sp q (start + len) = .ok h) :
    idx.Scanned sp q topK start (len + 1) (hits ++ [h]) := by
  refine ⟨fun e he => ?_, by simpa using hs.length, fun hlen i hi hlt => ?_⟩
  · cases mem_append.1 he with
    | inl he => exact hs.rows e he
    | inr he => exact ⟨_, hlt, mem_singleton.1 he ▸ hrow⟩
  · by_cases heq : i = start + len
    · exact ⟨h, by simp, heq ▸ hrow⟩
    · obtain ⟨e,he,hrow⟩ := hs.all (by omega) i hi (by omega)
      exact ⟨e, mem_append_left _ he, hrow⟩

omit [DecidableEq D] in
theorem Scanned.append {len' : Nat} {hits' : List (Hit D)}
    (h : idx.Scanned sp q topK start len hits)
    (h' : idx.Scanned sp q topK (start + len) len' hits') :
    idx.Scanned sp q topK start (len + len') (hits ++ hits') := by
  refine ⟨fun e he => ?_, ?_, fun hlen i hi hlt => ?_⟩
  · cases mem_append.1 he with
    | inl he => exact h.rows e he
    | inr he => exact h'.rows e he
  · rw [length_append]
    exact Nat.add_le_add h.length h'.length
  · by_cases hleft : i < start + len
    · obtain ⟨e,he,hrow⟩ := h.all (by omega) i hi hleft
      exact ⟨e, mem_append_left _ he, hrow⟩
    · obtain ⟨e,he,hrow⟩ := h'.all (by omega) i (by omega) (by omega)
      exact ⟨e, mem_append_right _ he, hrow⟩

omit [DecidableEq D] in
theorem outcome_scanRow (hidx : idx.Sized) (horder : rt.Orders F (idx.Exact sp q))
    (h : idx.Scanned sp q topK start len hits) (hlt : start + len < idx.rowIds.length) :
    Outcome F (idx.Scanned sp q topK start (len + 1)) (idx.scanRow rt q topK hits (start + len)) := by
  obtain ⟨hit,hhit,-,-⟩ := hidx.exists_row sp q hlt
  rw [scanRow,hhit]
  show Outcome F _ (trimTopKBuffer rt (hits ++ [hit]) topK)
  unfold trimTopKBuffer
  split
  · exact (h.push hlt hhit).outcome_select hidx horder
  · exact h.push hlt hhit

omit [DecidableEq D] in
theorem outcome_scanLeaf (hidx : idx.Sized) (horder : rt.Orders F (idx.Exact sp q)) (more : Nat)
    (h : idx.Scanned sp q topK start len hits) (hlt : start + len + more ≤ idx.rowIds.length) :
    Outcome F (idx.Scanned sp q topK start (len + more))
      ((List.range' (start + len) more).foldlM (idx.scanRow rt q topK) hits) := by
  induction more generalizing len hits with
  | zero => exact h
  | succ more ih =>
    rw [List.range'_succ,foldlM_cons]
    refine (outcome_scanRow hidx horder h (by omega)).bind fun hits' h' => ?_
    rw [show len + (more + 1) = len + 1 + more by omega]
    exact ih h' (by omega)

omit [DecidableEq D] in
theorem outcome_scanRows (hidx : idx.Sized) (horder : rt.Orders F (idx.Exact sp q)) (topK : Nat)
    (fork : Fork) (start : Nat) (hlt : start + fork.size ≤ idx.rowIds.length) :
    Outcome F (idx.Scanned sp q topK start fork.size) (idx.scanRows rt q topK fork start) := by
  induction fork generalizing start with
  | leaf len =>
    have hnil : idx.Scanned sp q topK start 0 [] := ⟨nofun, le_rfl, fun _ i hi hlt => by omega⟩
    refine Outcome.bind (Q := idx.Scanned sp q topK start len) ?_
      fun hits h => h.outcome_select hidx horder
    simpa using outcome_scanLeaf hidx horder len hnil hlt
  | fork left right ihl ihr =>
    simp only [Fork.size] at hlt ⊢
    refine (ihl start (by omega)).bind fun a ha => (ihr _ (by omega)).bind fun b hb => ?_
    exact (ha.append hb).outcome_select hidx horder

omit [DecidableEq D] in
theorem outcome_bruteForce (hidx : idx.Sized) (horder : rt.Orders F (idx.Exact sp q)) (topK : Nat) :
    Outcome F (fun hits => hits.length ≤ topK ∧
      idx.Scanned sp q topK 0 idx.rowIds.length hits) (idx.bruteForceTyped rt q topK) := by
  unfold bruteForceTyped
  split
  · rename_i hk
    exact ⟨Nat.zero_le _, nofun, Nat.zero_le _, fun hlen i _ hlt => by omega⟩
  · have hsize := rt.size_fork idx.rowIds.length
    have hscan := outcome_scanRows hidx horder topK (rt.fork idx.rowIds.length) 0 (by omega)
    rw [hsize] at hscan
    refine hscan.bind fun hits h => ?_
    refine (outcome_selectTopK horder (h.exact hidx) topK).mono fun r hr => ⟨hr.1, h.of_select hr⟩

theorem outcome_searchTyped (hidx : idx.Formed)
    (hcap : idx.neighbors ≠ [] → F .capacity ∨ 32 ≤ rt.limit ∧ 16 * (max ef topK * 2) ≤ rt.limit ∧
      16 * (max ef topK + 1) ≤ rt.limit)
    (horder : idx.neighbors ≠ [] → rt.Orders F (idx.Attained sp q))
    (hexact : idx.neighbors = [] → rt.Orders F (idx.Exact sp q)) :
    Outcome F (fun hits => hits.length ≤ topK ∧ idx.RowsOf (idx.Candidate sp q) hits)
      (idx.searchTyped rt q topK ef) := by
  unfold searchTyped
  split
  · rename_i hnil
    refine (outcome_bruteForce hidx.sized (hexact hnil) topK).mono fun hits hhits =>
      ⟨hhits.1, fun h hh => ?_⟩
    obtain ⟨i,hi,hrow⟩ := hhits.2.rows h hh
    obtain ⟨hit,hhit,hid,-⟩ := hidx.sized.exists_row sp q hi
    rw [hrow] at hhit
    cases hhit
    exact ⟨i, ⟨hi, .inl hnil⟩, hid⟩
  · rename_i hne
    exact outcome_hnswSearch hidx hne (hcap hne) (horder hne)

end HnswIndex
end AiLake.Hnsw
