import AiLake.HnswSearch

/-! Exact re-scoring of a quantised index looks vectors up by row id: its results are right exactly
if the row ids that a search can come to are positions of vectors at the same distance. -/
namespace AiLake.Hnsw

open BestFirst Checked

section Patient

variable {D : Type} {sp : Space D}

theorem consistent_of_length_le_two (sp : Space D) {ds : List D} (h : ds.length ≤ 2) :
    Consistent sp.lt ds := by
  intro a ha b hb c hc hlt
  have hne : a ≠ b := fun he => sp.irrefl b (he ▸ hlt)
  have hcases : c = a ∨ c = b := by
    match ds, h with
    | [x], _ => simp_all
    | [x,y], _ =>
      simp only [List.mem_cons,List.not_mem_nil,or_false] at ha hb hc
      obtain rfl | rfl := ha <;> obtain rfl | rfl := hb <;> tauto
  cases hcases with
  | inl he => exact .inr (he ▸ hlt)
  | inr he => exact .inl (he ▸ hlt)

/-- Sorts that never panic and a result heap that hands out a maximal entry whatever the
comparisons. What a descent depends on stays. -/
def Runtime.patient (rt : Runtime sp) (limit : Nat) : Runtime sp where
  limit := limit
  heaps :=
    { rt.heaps with
      farthest := fun l => if l.length ≤ 2 then rt.heaps.farthest l
        else (Heaps.ofOrder sp.irrefl sp.trans).farthest l
      farthest_mem := by
        intro l e h
        split at h
        · exact rt.heaps.farthest_mem h
        · exact (Heaps.ofOrder sp.irrefl sp.trans).farthest_mem h
      farthest_nil := by
        intro l h
        split at h
        · exact rt.heaps.farthest_nil h
        · exact (Heaps.ofOrder sp.irrefl sp.trans).farthest_nil h
      not_farthest_lt := by
        intro l e h hl
        split at h
        · exact rt.heaps.not_farthest_lt h hl
        · exact (Heaps.ofOrder sp.irrefl sp.trans).not_farthest_lt h hl }
  sort l := some ((rt.sort l).getD l)
  selectNth k l := some ((rt.selectNth k l).getD l)
  sortHits l := some ((rt.sortHits l).getD l)
  fork := rt.fork
  sort_perm := by
    intro l r h
    cases h
    cases hl : rt.sort l with
    | none => exact .refl l
    | some r => exact rt.sort_perm hl
  sort_ordered := by
    intro l h
    obtain ⟨r, hr, hordered⟩ := rt.sort_ordered h
    exact ⟨r, by rw [hr]; rfl, hordered⟩
  selectNth_perm := by
    intro k l r h
    cases h
    cases hl : rt.selectNth k l with
    | none => exact .refl l
    | some r => exact rt.selectNth_perm hl
  selectNth_ordered := by
    intro k l h
    obtain ⟨r, hr, hordered⟩ := @Runtime.selectNth_ordered _ _ rt k l h
    exact ⟨r, by rw [hr]; rfl, hordered⟩
  sortHits_perm := by
    intro l r h
    cases h
    cases hl : rt.sortHits l with
    | none => exact .refl l
    | some r => exact rt.sortHits_perm hl
  sortHits_ordered := by
    intro l h
    obtain ⟨r, hr, hordered⟩ := rt.sortHits_ordered h
    exact ⟨r, by rw [hr]; rfl, hordered⟩
  size_fork := rt.size_fork

variable {rt : Runtime sp} {limit : Nat} {F : Fault → Prop} {S : D → Prop}

variable (rt limit F S) in
theorem orders_patient : (rt.patient limit).Orders F S := ⟨nofun,nofun,nofun⟩

theorem not_patient_farthest_lt {l : List (D × Nat)} {e : D × Nat}
    (h : (rt.patient limit).heaps.farthest l = some e) : ∀ x ∈ l, ¬sp.lt e.1 x.1 := by
  have hsplit : (if l.length ≤ 2 then rt.heaps.farthest l
    else (Heaps.ofOrder sp.irrefl sp.trans).farthest l) = some e := h
  split at hsplit
  · rename_i hlen
    exact rt.heaps.not_farthest_lt hsplit (consistent_of_length_le_two sp (by simpa using hlen))
  · exact Heaps.not_ofOrder_farthest_lt hsplit

variable [DecidableEq D] {idx : HnswIndex} {q : List F32} {layer e : Nat} {w : List (D × Nat)}

theorem searchLayer_patient (hlimit : 32 ≤ limit)
    (h : idx.searchLayer rt q [e] 1 layer = .ok w) :
    idx.searchLayer (rt.patient limit) q [e] 1 layer = .ok w := by
  obtain ⟨_,-,h⟩ := bind_eq_ok.1 h
  obtain ⟨_,-,h⟩ := bind_eq_ok.1 h
  obtain ⟨s,hs,h⟩ := bind_eq_ok.1 h
  obtain ⟨t,ht,h⟩ := bind_eq_ok.1 h
  have hreserve (bytes : Nat) (hb : bytes ≤ 32) : (rt.patient limit).reserve bytes = .ok () :=
    if_pos (hb.trans hlimit)
  have hlen : s.found.length ≤ 1 := by
    rw [List.foldlM_cons] at hs
    obtain ⟨u,hu,hs⟩ := bind_eq_ok.1 hs
    cases hs
    unfold Frontier.enter at hu
    split at hu
    · cases hu
      exact Nat.zero_le 1
    · obtain ⟨d,-,hu⟩ := bind_eq_ok.1 hu
      cases hu
      exact le_rfl
  have hnear (l : List (D × Nat)) :
      rt.heaps.nearest l = (rt.patient limit).heaps.nearest l := rfl
  have hfar (l : List (D × Nat)) (hl : l.length ≤ 1 + 1) :
      rt.heaps.farthest l = (rt.patient limit).heaps.farthest l := (if_pos hl).symm
  have hexplore : Frontier.explore rt.heaps sp.infinity (idx.distance sp q) (idx.expand layer)
      Fault.stuck 1 idx.rowIds.length s = Frontier.explore (rt.patient limit).heaps sp.infinity
        (idx.distance sp q) (idx.expand layer) Fault.stuck 1 idx.rowIds.length s :=
    Frontier.explore_congr hnear hfar hlen
  rw [hexplore] at ht
  simp only [HnswIndex.searchLayer,hreserve _ (le_refl (16 * (1 * 2))),hs,ht,bind,Except.bind]
  refine checked_eq_ok.2 ?_
  show some ((rt.sort t.found).getD t.found) = some w
  rw [checked_eq_ok.1 h,Option.getD_some]

theorem descend_patient {lo hi : Nat} {eps : List Nat} (hlimit : 32 ≤ limit)
    (h : idx.descend rt q lo hi [e] = .ok eps) :
    idx.descend (rt.patient limit) q lo hi [e] = .ok eps := by
  induction hi generalizing e with
  | zero => exact h
  | succ hi ih =>
    unfold HnswIndex.descend at h ⊢
    split at h
    · rename_i hlo
      obtain ⟨w,hw,h⟩ := bind_eq_ok.1 h
      obtain ⟨best,hbest,h⟩ := bind_eq_ok.1 h
      simp only [if_pos hlo,searchLayer_patient hlimit hw,hbest,bind,Except.bind]
      exact ih h
    · rename_i hlo
      rw [if_neg hlo]
      exact h

theorem exists_hit_of_candidate {i : Nat} (hidx : idx.Formed) (hi : idx.Candidate sp q i) :
    ∃ (rt : Runtime sp) (limit : Nat) (hits : List (Hit D)), idx.searchTyped (rt.patient limit) q
        (max (max 0 (idx.rowIds.length * 10)) idx.rowIds.length) 0 = .ok hits ∧
      hits.length ≤ idx.rowIds.length ∧ ∃ h ∈ hits, idx.rowIds[i]? = some h.1 := by
  obtain ⟨pool,hpool⟩ : ∃ pool, max (max 0 (idx.rowIds.length * 10)) idx.rowIds.length = pool :=
    ⟨_,rfl⟩
  rw [hpool]
  by_cases hnil : idx.neighbors = []
  · have hbrute := outcome_false.1 (HnswIndex.outcome_bruteForce hidx.sized
      (orders_patient (.standard sp 0) 0 _ (idx.Exact sp q)) pool)
    obtain ⟨hits,hhits,-,hscanned⟩ := hbrute
    obtain ⟨h,hh,hrow⟩ := hscanned.all (by omega) i (Nat.zero_le i) (by simpa using hi.1)
    obtain ⟨h',hh',hid,-⟩ := hidx.sized.exists_row sp q hi.1
    rw [hrow] at hh'
    cases hh'
    exact ⟨.standard sp 0, 0, hits, by rw [HnswIndex.searchTyped,if_pos hnil,hhits],
      hscanned.length, h, hh, hid⟩
  · obtain ⟨rt,ep,eps,hep,hdescend,e,he,hreach⟩ := hi.2.resolve_left hnil
    have hdescend' : idx.descend (rt.patient (32 * (pool + 1))) q 1 idx.maxLayer [ep] = .ok eps :=
      descend_patient (by omega) hdescend
    obtain ⟨eps',heps',hdescended⟩ := outcome_false.1 ((HnswIndex.outcome_descend 1 idx.maxLayer
      (P := fun _ i => i < idx.rowIds.length) hidx.sized (fun layer _ _ => hidx.toLayer hnil layer)
      (fun _ _ h => h) (List.cons_ne_nil ep []) (by simpa using hidx.entry ep hep)
      (.inr (by show 32 ≤ 32 * (pool + 1); omega))
      (orders_patient rt (32 * (pool + 1)) _ (idx.Attained sp q))))
    obtain rfl : eps = eps' := by
      rw [hdescend'] at heps'
      cases heps'
      rfl
    have hroom : 16 * (max 0 pool * 2) ≤ 32 * (pool + 1) ∧ 16 * (max 0 pool + 1) ≤ 32 * (pool + 1) := by
      omega
    obtain ⟨w,hw,hranked,-⟩ := outcome_false.1 (HnswIndex.outcome_searchLayer hidx.sized
      (hidx.toLayer hnil 0) hdescended.2 (.inr hroom)
      (orders_patient rt (32 * (pool + 1)) _ (idx.Attained sp q)))
    obtain ⟨d,hd⟩ := HnswIndex.searchLayer_full hidx.sized (hidx.toLayer hnil 0) hdescended.2
      (by omega) (fun l x hl _ => not_patient_farthest_lt hl) hw he hreach
    have hlen := hranked.length_le
    obtain ⟨hits,hhits,hrel⟩ := outcome_false.1
      (HnswIndex.outcome_hits w fun x hx => (hranked.mem x hx).1)
    obtain ⟨h,hh,hrow,-⟩ := exists_of_mem_right hrel.flip hd
    refine ⟨rt, 32 * (pool + 1), hits, ?_, hrel.length_eq ▸ hlen, h, hh, hrow⟩
    simp only [HnswIndex.searchTyped,if_neg hnil,HnswIndex.hnswSearchTyped,hep,hdescend',hw,
      bind,Except.bind]
    rw [List.take_of_length_le (by omega)]
    exact hhits

end Patient

namespace HnswIndex

variable {D : Type} [DecidableEq D] (sp : Space D) (idx : HnswIndex)

/-- The hit carries the exact distance of the vector that is stored under its row id. -/
def Scored (q : List F32) (h : Hit D) : Prop :=
  ∃ i v, idx.rowIds[i]? = some h.1 ∧ idx.vector i = .ok v ∧ h.2 = sp.dist .normalizedCosine q v

/-- No search reads out of range, and all that it returns is scored by its own vector. -/
def RescoresRight : Prop :=
  ∀ (rt : Runtime sp) (query : List F32) (topK ef : Nat), query.length = idx.dim →
    idx.search rt query topK ef ≠ .error .outOfRange ∧
      ∀ hits, idx.search rt query topK ef = .ok hits →
        ∀ h ∈ hits, idx.Scored sp (sp.normalizeL2 query) h

/-- The row id of a node that a search can come to is the position of a vector, at the same distance
as the node's own. -/
def PositionsMatch : Prop :=
  ∀ query : List F32, query.length = idx.dim → ∀ i, idx.Candidate sp (sp.normalizeL2 query) i →
    ∃ rowId v w, idx.rowIds[i]? = some rowId ∧ idx.vector i = .ok v ∧
      idx.vectorOfRow rowId = .ok w ∧
        sp.dist .normalizedCosine (sp.normalizeL2 query) w =
          sp.dist .normalizedCosine (sp.normalizeL2 query) v

variable {sp idx}

theorem search_eq_rescored (hmetric : idx.metric = .normalizedCosine)
    (hf16 : idx.flatVecsF16.isSome) (rt : Runtime sp) (query : List F32) (topK ef : Nat) :
    idx.search rt query topK ef = (do
      let candidates ← idx.searchTyped rt (sp.normalizeL2 query) (max (max ef (topK * 10)) topK) ef
      let candidates ← candidates.mapM (idx.rescore sp (sp.normalizeL2 query))
      selectTopK rt candidates topK) := by
  rw [search,if_pos hmetric,if_pos hf16]

theorem outcome_rescored (hidx : idx.Formed) (hmatch : idx.PositionsMatch sp)
    (hmetric : idx.metric = .normalizedCosine) (hf16 : idx.flatVecsF16.isSome) (rt : Runtime sp)
    (query : List F32) (hquery : query.length = idx.dim) (topK ef : Nat) :
    Outcome (· ≠ .outOfRange) (fun hits => ∀ h ∈ hits, idx.Scored sp (sp.normalizeL2 query) h)
      (idx.search rt query topK ef) := by
  rw [search_eq_rescored hmetric hf16]
  have horder (S : D → Prop) : rt.Orders (· ≠ .outOfRange) S := orders_of_fault nofun
  refine (outcome_searchTyped hidx (fun _ => .inl nofun) (fun _ => horder _) fun _ => horder _).bind fun candidates hc => ?_
  have hrescore : Outcome (· ≠ .outOfRange)
      (List.Forall₂ (fun _ h => idx.Scored sp (sp.normalizeL2 query) h) candidates)
      (candidates.mapM (idx.rescore sp (sp.normalizeL2 query))) := by
    refine Outcome.mapM fun h hh => ?_
    obtain ⟨i,hi,hrow⟩ := hc.2 h hh
    obtain ⟨rowId,v,w,hrow',hv,hw,heq⟩ := hmatch query hquery i hi
    obtain rfl : h.1 = rowId := Option.some.inj (hrow.symm.trans hrow')
    rw [rescore,hw]
    exact ⟨i,v,hrow,hv,heq⟩
  refine hrescore.bind fun scored hscored => ?_
  refine (outcome_selectTopK (horder fun _ => True) (fun _ _ => trivial) topK).mono fun r hr h hh => ?_
  obtain ⟨_,-,hs⟩ := exists_of_mem_right hscored (hr.2.1 h hh)
  exact hs

variable (sp idx) in
omit [DecidableEq D] in
theorem outcome_rescore (q : List F32) (candidates : List (Hit D)) :
    Outcome (· = .outOfRange) (List.Forall₂ (fun c h : Hit D => h.1 = c.1 ∧
      ∃ w, idx.vectorOfRow c.1 = .ok w ∧ h.2 = sp.dist .normalizedCosine q w) candidates)
      (candidates.mapM (idx.rescore sp q)) := by
  refine Outcome.mapM fun c _ => ?_
  unfold rescore
  cases hw : idx.vectorOfRow c.1 with
  | ok w => exact ⟨rfl,w,rfl,rfl⟩
  | error e =>
    unfold vectorOfRow checked at hw
    split at hw
    · cases hw
      exact rfl
    · cases hw

theorem match_of_rescoresRight (hidx : idx.Formed) (hnodup : idx.rowIds.Nodup)
    (hmetric : idx.metric = .normalizedCosine) (hf16 : idx.flatVecsF16.isSome)
    (h : idx.RescoresRight sp) : idx.PositionsMatch sp := by
  intro query hquery i hi
  obtain ⟨rt,limit,hits,hsearch,hlen,c,hc,hrow⟩ := exists_hit_of_candidate hidx hi
  obtain ⟨hrange,hscored⟩ := h (rt.patient limit) query idx.rowIds.length 0 hquery
  rw [search_eq_rescored hmetric hf16,hsearch] at hrange hscored
  have hall := outcome_rescore sp idx (sp.normalizeL2 query) hits
  cases hmap : hits.mapM (idx.rescore sp (sp.normalizeL2 query)) with
  | error e =>
    -- a re-scoring that fails has read out of range
    rw [hmap] at hall
    obtain rfl : e = .outOfRange := hall
    simp only [bind,Except.bind,hmap] at hrange
    exact absurd rfl hrange
  | ok scored =>
    rw [hmap] at hall
    obtain ⟨r,hr,-,-,hperm⟩ := outcome_false.1 (outcome_selectTopK
      (orders_patient rt limit (fun _ => False) fun _ => True) (fun e (_ : e ∈ scored) => trivial)
      idx.rowIds.length)
    obtain ⟨s,hs,hs1,w,hw,hs2⟩ := exists_of_mem_right (List.Forall₂.flip hall) hc
    have hmem := (hperm ((List.Forall₂.length_eq hall) ▸ hlen)).mem_iff.2 hs
    obtain ⟨j,v,hj,hv,hd⟩ := hscored r (by simp only [bind,Except.bind,hmap,hr]) s hmem
    obtain rfl : i = j := by
      have hid : idx.rowIds[i]? = idx.rowIds[j]? := by rw [hrow,hj,hs1]
      exact (List.getElem?_inj hi.1 hnodup).1 hid
    exact ⟨c.1, v, w, hrow, hv, hw, hs2 ▸ hd⟩

/-- Re-scored results belong to their rows exactly if the row ids stand for positions. -/
theorem rescoresRight_iff (hidx : idx.Formed) (hnodup : idx.rowIds.Nodup)
    (hmetric : idx.metric = .normalizedCosine) (hf16 : idx.flatVecsF16.isSome) :
    idx.RescoresRight sp ↔ idx.PositionsMatch sp := by
  refine ⟨match_of_rescoresRight hidx hnodup hmetric hf16, fun hmatch rt query topK ef hquery => ?_⟩
  have hsearch := outcome_rescored hidx hmatch hmetric hf16 rt query hquery topK ef
  constructor
  · intro hfault
    rw [hfault] at hsearch
    exact hsearch rfl
  · intro hits hhits
    rw [hhits] at hsearch
    exact hsearch

end HnswIndex

def demoSpace : Space Nat where
  lt a b := decide (a < b)
  infinity := 2 ^ 64
  dist _ a b := (List.zipWith (fun x y => (x.toNat - y.toNat) + (y.toNat - x.toNat)) a b).sum
  distF16 _ a b := (List.zipWith (fun x y => (x.toNat - y.toNat) + (y.toNat - x.toNat)) a b).sum
  toF16 x := x.truncate 16
  normalizeL2 v := v
  irrefl := by simp
  trans a b c hab hbc := by
    simp only [decide_eq_true_eq] at *
    omega
  length_normalizeL2 _ := rfl

theorem demoSpace_lt (a b : Nat) : demoSpace.lt a b ↔ a < b := decide_eq_true_iff

def demoRow (rowId : UInt64) : HnswIndex :=
  { config := ⟨16, 150, 10⟩, metric := .normalizedCosine, dim := 1, flatVecs := [0x3F800000#32],
    flatVecsF16 := some [demoSpace.toF16 0x3F800000#32], rowIds := [rowId], neighbors := [[[]]],
    nodeLevels := [0], entryPoint := some 0, maxLayer := 0 }

theorem formed_demoRow (rowId : UInt64) : (demoRow rowId).Formed where
  sized := ⟨rfl, fun f16s h => by cases h; rfl⟩
  entry ep h := by
    cases h
    exact Nat.zero_lt_one
  lists _ c level layer hc hle := by
    cases c with
    | zero =>
      cases hc
      obtain rfl : layer = 0 := by omega
      exact ⟨[],rfl,nofun⟩
    | succ c => cases hc

theorem rescoresRight_demoRow : (demoRow 0).PositionsMatch demoSpace ∧
    (demoRow 0).RescoresRight demoSpace := by
  have hmatch : (demoRow 0).PositionsMatch demoSpace := by
    intro query _ i hi
    obtain rfl : i = 0 := Nat.lt_one_iff.1 hi.1
    exact ⟨0,[0x3F800000#32],[0x3F800000#32],rfl,rfl,rfl,rfl⟩
  exact ⟨hmatch, (HnswIndex.rescoresRight_iff (formed_demoRow 0) (List.nodup_singleton 0) rfl rfl).2
    hmatch⟩

/-- The only row has row id 7: the search reads the eighth vector. -/
theorem rescoring_reads_out_of_range :
    (fun idx => HnswIndex.quantizeToF16 idx demoSpace) <$>
      HnswBuilder.buildSerialTyped (.standard demoSpace (2 ^ 63 - 1))
        ⟨⟨16, 150, 10⟩, .normalizedCosine, 1, [(7, [0x3F800000#32])]⟩ (fun _ => 0) =
          .ok (demoRow 7) ∧
      (demoRow 7).rowIds.Nodup ∧ (demoRow 7).metric = .normalizedCosine ∧
        (demoRow 7).flatVecsF16.isSome ∧ ¬(demoRow 7).RescoresRight demoSpace := by
  refine ⟨rfl, List.nodup_singleton 7, rfl, rfl, fun h => ?_⟩
  have hsearch : (demoRow 7).search (.standard demoSpace (2 ^ 63 - 1)) [0x3F800000#32] 1 10 =
      .error .outOfRange := by decide +kernel
  exact (h (.standard demoSpace (2 ^ 63 - 1)) [0x3F800000#32] 1 10 rfl).1 hsearch

end AiLake.Hnsw
