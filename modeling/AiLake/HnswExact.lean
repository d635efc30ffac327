import AiLake.HnswBuild
import AiLake.HnswRescore

/-! A small index is exact: while no list of the lowest layer overflows, the serial build joins all
nodes there, and a search with room for all returns the nearest, if the reservations are granted. -/
namespace AiLake.Hnsw

open BestFirst Checked List

namespace HnswIndex

variable {D : Type} {sp : Space D} {rt : Runtime sp} {idx idx' : HnswIndex}

/-- On the lowest layer every one of the first `k` nodes can be reached from every other. -/
def Joined (idx : HnswIndex) (k : Nat) : Prop :=
  ∀ a b, a < k → b < k → Relation.ReflTransGen idx.Linked a b

theorem Rewired.lowest {i r : Nat} (h : Rewired i (r + 1) idx idx') :
    ∃ mid selected, Relinked mid idx' i 0 selected ∧ Frame idx mid fun _ layer => layer ≠ 0 := by
  induction r generalizing idx with
  | zero =>
    cases h with
    | step h rest =>
      cases rest
      exact ⟨idx, _, h, (Frame.refl idx).mono fun _ _ h => h.elim⟩
  | succ r ih =>
    cases h with
    | step h rest =>
      obtain ⟨mid,selected,hre,hframe⟩ := ih rest
      refine ⟨mid, selected, hre, (h.frame.trans hframe).mono fun a layer hc => ?_⟩
      cases hc with
      | inl hc => exact hc.1 ▸ Nat.succ_ne_zero r
      | inr hc => exact hc

theorem Wired.onLayer_zero {k a : Nat} (h : idx.Wired k) (ha : a < idx.rowIds.length) :
    idx.OnLayer 0 a := by
  have hlt : a < idx.nodeLevels.length := h.levels ▸ ha
  exact ⟨idx.nodeLevels[a], getElem?_eq_getElem hlt, Nat.zero_le _⟩

theorem linked_iff {a b : Nat} (ha : idx.OnLayer 0 a) :
    idx.Linked a b ↔ ∃ l, idx.list a 0 = .ok l ∧ b ∈ l := by
  rw [Linked,expand_of_onLayer ha]

theorem Wired.lt_of_linked {k a b : Nat} (h : idx.Wired k) (hab : idx.Linked a b) : b < k := by
  obtain ⟨l,hl,hb⟩ := hab
  unfold HnswIndex.expand at hl
  split at hl
  · cases hl
    cases hb
  · rename_i level hlevel
    rw [if_neg (Nat.not_lt_zero level)] at hl
    exact (h.links a 0 l hl b hb).1

theorem linked_promote (i level : Nat) : (idx.promote i level).Linked = idx.Linked := by
  unfold promote
  split <;> rfl

theorem length_lt_of_tidy {k a : Nat} {l : List Nat} (hidx : idx.Wired k) (htidy : idx.Tidy)
    (ha : a < k) (hl : idx.list a 0 = .ok l) : l.length < k := by
  obtain ⟨hnodup,hself,-⟩ := htidy a 0 l hl
  have hsub : a :: l ⊆ List.range k := by
    intro b hb
    cases hb with
    | head => exact mem_range.2 ha
    | tail _ hb => exact mem_range.2 (hidx.links a 0 l hl b hb).1
  simpa using (subperm_of_subset (nodup_cons.2 ⟨hself,hnodup⟩) hsub).length_le

theorem Inserted.joined {k level : Nat} (h : Inserted k level idx idx') (hidx : idx.Wired k)
    (hk : k < idx.rowIds.length) (htidy : idx.Tidy) (htop : idx.Topped k)
    (hroom : k ≤ 2 * idx.config.m)
    (hm : 1 ≤ idx.config.m) (hjoined : idx.Joined k) : idx'.Joined (k + 1) := by
  cases h with
  | first h =>
    obtain rfl : k = 0 := htop.2 h
    intro a b ha hb
    obtain rfl : a = b := by omega
    exact .refl
  | @later ep mid hep hmid =>
    obtain ⟨start,selected,hre,hframe⟩ := hmid.lowest
    have hlist (a : Nat) : start.list a 0 = idx.list a 0 := hframe.lists a 0 fun h => h rfl
    have hmax : maxLinks start.config.m 0 = 2 * idx.config.m := by
      rw [hframe.config]
      rfl
    have hzero (a : Nat) (ha : a < k + 1) : mid.OnLayer 0 a :=
      hmid.frame.onLayer.2 (hidx.onLayer_zero (by omega))
    -- a chosen node has got its link back
    have hback (s : Nat) (hs : s ∈ selected) (l : List Nat) (hl : idx.list s 0 = .ok l) :
        mid.list s 0 = .ok (l ++ [k]) := by
      obtain ⟨l',hl',hext⟩ := hre.back s hs l ((hlist s).trans hl)
      have hlen := length_lt_of_tidy hidx htidy (hre.chosen.mem s hs).1 hl
      rw [hl',hext.whole (by rw [hmax,length_append,length_singleton]; omega)]
    have hold (a b : Nat) (ha : a < k) (hab : idx.Linked a b) : mid.Linked a b := by
      obtain ⟨l,hl,hb⟩ := (linked_iff (hidx.onLayer_zero (ha.trans hk))).1 hab
      refine (linked_iff (hzero a (by omega))).2 ?_
      by_cases hs : a ∈ selected
      · exact ⟨_, hback a hs l hl, mem_append_left _ hb⟩
      · refine ⟨l,?_,hb⟩
        rw [hre.frame.lists a 0 fun hc => hc.2.elim (by omega) hs,hlist,hl]
    have hjoined' (a b : Nat) (ha : a < k) (hb : b < k) : Relation.ReflTransGen mid.Linked a b := by
      have hreach := hjoined a b ha hb
      clear hb
      induction hreach with
      | refl => exact .refl
      | @tail x y hax hxy ih =>
        have hx : x < k := by
          cases hax.cases_tail with
          | inl he => exact he ▸ ha
          | inr hlast =>
            obtain ⟨z,-,hz⟩ := hlast
            exact hidx.lt_of_linked hz
        exact ih.tail (hold x y hx hxy)
    obtain ⟨s,hs⟩ := exists_mem_of_ne_nil selected (hre.chosen.nonempty (by omega))
    have hsk := (hre.chosen.mem s hs).1
    have hto : mid.Linked s k := by
      obtain ⟨l,hl⟩ := (hidx.shape s 0).2 (hidx.onLayer_zero (hsk.trans hk))
      exact (linked_iff (hzero s (by omega))).2 ⟨_, hback s hs l hl, by simp⟩
    have hfrom : mid.Linked k s := (linked_iff (hzero k (by omega))).2 ⟨selected,hre.own,hs⟩
    intro a b ha hb
    rw [linked_promote]
    by_cases hak : a < k <;> by_cases hbk : b < k
    · exact hjoined' a b hak hbk
    · obtain rfl : b = k := by omega
      exact (hjoined' a s hak hsk).tail hto
    · obtain rfl : a = k := by omega
      exact (hjoined' s b hsk hbk).head hfrom
    · obtain rfl : a = b := by omega
      exact .refl

theorem search_of_unquantised [DecidableEq D] (hf16 : idx.flatVecsF16 = none) (query : List F32)
    (topK ef : Nat) :
    idx.search rt query topK ef = idx.searchTyped rt (idx.stored sp query) topK ef := by
  unfold search stored
  rw [hf16]
  split <;> rfl

theorem pairwise_searchLayer [DecidableEq D] {P : Nat → Prop} {layer ef : Nat} {eps : List Nat}
    {q : List F32} {w : List (D × Nat)} (hidx : idx.Sized) (hlayer : idx.Layer layer P)
    (heps : ∀ i ∈ eps, P i) (hcomp : Comparable sp (idx.Attained sp q))
    (h : idx.searchLayer rt q eps ef layer = .ok w) : w.Pairwise fun a b => ¬sp.lt b.1 a.1 := by
  obtain ⟨s,t,hs,ht,hsound,-,-⟩ := hlayer.search_sound hidx heps rt q ef
  obtain ⟨_,-,h⟩ := bind_eq_ok.1 h
  obtain ⟨_,-,h⟩ := bind_eq_ok.1 h
  simp only [hs,ht,bind,Except.bind] at h
  have hconsistent : Consistent sp.lt (t.found.map Prod.fst) := hcomp _ fun d hd => by
    obtain ⟨e,he,rfl⟩ := mem_map.1 hd
    exact ⟨e.2, (hsound.found e he).2⟩
  obtain ⟨r,hr,hordered⟩ := rt.sort_ordered hconsistent
  obtain rfl : r = w := Option.some.inj (hr.symm.trans (checked_eq_ok.1 h))
  exact hordered

end HnswIndex

namespace HnswBuilder

variable {D : Type} [LinearOrder D] {sp : Space D} (rt : Runtime sp) (b : HnswBuilder)
variable (levels : Nat → Nat) (topK ef : Nat)

variable (sp) in
def distances (query : List F32) : List D :=
  b.vectors.map fun p =>
    sp.dist b.metric (if b.metric = .normalizedCosine then sp.normalizeL2 query else query) p.2

/-- After the serial build a search returns the nearest `topK` in their order. -/
def ReturnsNearest : Prop :=
  ∀ query : List F32, query.length = b.dim → ∃ idx hits,
    b.buildSerialTyped rt levels = .ok idx ∧ idx.search rt query topK ef = .ok hits ∧
      hits.length = min topK b.vectors.length ∧
        hits.map Prod.snd = ((b.distances sp query).insertionSort (· ≤ ·)).take topK

/-- The reservations are granted: a list for each layer of a node, the heaps and the selection of an
insertion, the heaps of the search. -/
structure Fits : Prop where
  levels : ∀ i < b.vectors.length, 24 * (levels i + 1) ≤ rt.limit
  build : 2 ≤ b.vectors.length → 32 * b.config.efConstruction ≤ rt.limit ∧ 32 * b.config.m ≤ rt.limit
  search : 1 ≤ b.vectors.length → 32 * max ef topK ≤ rt.limit

variable {rt b levels topK ef}

theorem build_joined (hb : b.Uniform) (hlt : ∀ a b, sp.lt a b ↔ a < b) (h : Fits rt b levels topK ef)
    (hsmall : b.vectors.length ≤ 2 * b.config.m + 1) (hm : 1 ≤ b.config.m)
    (hef : 1 ≤ b.config.efConstruction) : ∃ idx, b.buildSerialTyped rt levels = .ok idx ∧
      b.Inserts levels b.vectors.length idx ∧ idx.Joined b.vectors.length := by
  have hcap (htwo : 2 ≤ b.vectors.length) : HnswIndex.Affords rt (fun _ => False) b.config := by
    obtain ⟨hefc,hlinks⟩ := h.build htwo
    exact .inr (by omega)
  refine outcome_false.1 (outcome_buildSerial hb (.inr h.levels) hcap
    (fun _ _ _ => (comparable_of_linear hlt _).orders) (fun k idx => idx.Joined k)
    (fun a b ha => absurd ha (Nat.not_lt_zero a)) fun k idx idx' hk hidx hjoined hins => ?_)
  refine hins.joined hidx.wired (by rw [hidx.length_rowIds]; exact hk) hidx.tidy hidx.topped ?_ ?_
    hjoined
  · rw [hidx.fields.1]
    omega
  · rw [hidx.fields.1]
    exact hm

omit [LinearOrder D] in
theorem Inserts.distance {k : Nat} {idx : HnswIndex} (hb : b.Uniform) (h : b.Inserts levels k idx)
    (q : List F32) {i : Nat} (hi : i < b.vectors.length) :
    idx.distance sp q i = .ok (sp.dist b.metric q b.vectors[i].2) := by
  obtain ⟨-,hmetric,-,-,hf16,-⟩ := h.fields
  rw [HnswIndex.distance,if_neg (by rw [h.length_rowIds]; exact hi.not_ge),hf16]
  simp only [h.vector,vector_unlinked hb hi,hmetric]
  rfl

theorem map_fst_of_ranked {idx : HnswIndex} {q : List F32} {P : Nat → Prop} {w : List (D × Nat)}
    (hb : b.Uniform) (hlt : ∀ a b, sp.lt a b ↔ a < b) (h : b.Inserts levels b.vectors.length idx)
    (hw : idx.Ranked sp q P w) (hall : ∀ i < b.vectors.length, ∃ d, (d, i) ∈ w)
    (hordered : w.Pairwise fun a b => ¬sp.lt b.1 a.1) :
    w.map Prod.fst =
      (b.vectors.map fun p => sp.dist b.metric q p.2).insertionSort (· ≤ ·) := by
  have hmem (e : D × Nat) (he : e ∈ w) : e.2 < b.vectors.length := by
    rw [← h.length_rowIds]
    exact HnswIndex.lt_of_distance (hw.mem e he).2
  have hnodes : (w.map Prod.snd).Perm (List.range b.vectors.length) := by
    refine (perm_ext_iff_of_nodup hw.nodup nodup_range).2 fun i => ?_
    rw [mem_range]
    constructor
    · intro hi
      obtain ⟨e,he,rfl⟩ := mem_map.1 hi
      exact hmem e he
    · intro hi
      obtain ⟨d,hd⟩ := hall i hi
      exact mem_map_of_mem hd
  let dist (i : Nat) : D :=
    (b.vectors[i]?.map fun p => sp.dist b.metric q p.2).getD sp.infinity
  have hfst : w.map Prod.fst = (w.map Prod.snd).map dist := by
    rw [map_map]
    refine map_congr_left fun e he => ?_
    have hd := (hw.mem e he).2
    rw [h.distance hb q (hmem e he)] at hd
    simp only [Function.comp_apply,dist,getElem?_eq_getElem (hmem e he),Option.map_some,
      Option.getD_some]
    exact (Except.ok.inj hd).symm
  have hdist : (List.range b.vectors.length).map dist =
      b.vectors.map fun p => sp.dist b.metric q p.2 := by
    refine ext_getElem (by simp) fun i hi _ => ?_
    simp only [length_map,length_range] at hi
    simp [dist,hi]
  have hperm : (w.map Prod.fst).Perm
      ((b.vectors.map fun p => sp.dist b.metric q p.2).insertionSort (· ≤ ·)) := by
    rw [hfst]
    exact ((hnodes.map dist).trans (hdist ▸ .refl _)).trans (perm_insertionSort _ _).symm
  refine List.Perm.eq_of_pairwise' (r := (· ≤ ·)) ?_ (pairwise_insertionSort _ _) hperm
  refine pairwise_map.2 (hordered.imp fun {x y} hxy => ?_)
  rw [hlt] at hxy
  exact not_lt.1 hxy

/-- The search of a joined graph with room for every node returns the nearest ones. -/
theorem hnswSearch_nearest {idx : HnswIndex} (hb : b.Uniform) (hlt : ∀ a b, sp.lt a b ↔ a < b)
    (h : b.Inserts levels b.vectors.length idx) (hjoined : idx.Joined b.vectors.length)
    (hpos : 1 ≤ b.vectors.length) (hef : b.vectors.length ≤ ef) (hcap : 32 * max ef topK ≤ rt.limit)
    (q : List F32) : ∃ hits, idx.hnswSearchTyped rt q topK ef = .ok hits ∧
      hits.length = min topK b.vectors.length ∧ hits.map Prod.snd =
        ((b.vectors.map fun p => sp.dist b.metric q p.2).insertionSort (· ≤ ·)).take topK := by
  have hrows := h.length_rowIds
  have hcomp (S : D → Prop) : Comparable sp S := comparable_of_linear hlt S
  obtain ⟨ep,hep⟩ : ∃ ep, idx.entryPoint = some ep := by
    cases hep : idx.entryPoint with
    | some ep => exact ⟨ep,rfl⟩
    | none =>
      have := h.topped.2 hep
      omega
  obtain ⟨hlt',hlevel⟩ := h.entered ep hep
  have hlayer (layer : Nat) := h.wired.toLayer (by rw [hrows]) layer
  obtain ⟨eps,hdescend,hne,heps⟩ : ∃ eps, idx.descend rt q 1 idx.maxLayer [ep] = .ok eps ∧
      eps ≠ [] ∧ ∀ i ∈ eps, i < b.vectors.length ∧ idx.OnLayer (min idx.maxLayer (1 - 1)) i :=
    outcome_false.1 (HnswIndex.outcome_descend 1 idx.maxLayer h.wired.sized
      (fun layer _ _ => hlayer layer) (fun layer a ha => ⟨ha.1, ha.2.down (Nat.le_succ layer)⟩)
      (cons_ne_nil ep []) (by simpa using ⟨hlt',idx.maxLayer,hlevel,le_rfl⟩)
      (.inr (by omega)) (hcomp _).orders)
  rw [show min idx.maxLayer (1 - 1) = 0 by omega] at heps
  obtain ⟨w,hw,hranked,-⟩ : ∃ w, idx.searchLayer rt q eps (max ef topK) 0 = .ok w ∧
      idx.Ranked sp q (fun a => a < b.vectors.length ∧ idx.OnLayer 0 a) w ∧ (eps ≠ [] → w ≠ []) :=
    outcome_false.1 (HnswIndex.outcome_searchLayer h.wired.sized (hlayer 0) heps
      (.inr (by omega)) (hcomp _).orders)
  have hall (i : Nat) (hi : i < b.vectors.length) : ∃ d, (d, i) ∈ w := by
    obtain ⟨e,he⟩ := exists_mem_of_ne_nil eps hne
    refine HnswIndex.searchLayer_full h.wired.sized (hlayer 0) heps (by omega) (fun l x hx _ => ?_) hw he
      (hjoined e i (heps e he).1 hi)
    exact rt.heaps.not_farthest_lt hx (hcomp (fun _ => True) _ fun _ _ => trivial)
  have hfst := map_fst_of_ranked hb hlt h hranked hall
    (HnswIndex.pairwise_searchLayer h.wired.sized (hlayer 0) heps (hcomp _) hw)
  obtain ⟨hits,hhits,hrel⟩ := outcome_false.1 (HnswIndex.outcome_hits (w.take topK)
    fun e he => HnswIndex.lt_of_distance (hranked.mem e (mem_of_mem_take he)).2)
  have hlen : w.length = b.vectors.length := by
    have hlen := congrArg List.length hfst
    rwa [length_map,length_insertionSort,length_map] at hlen
  refine ⟨hits,?_,?_,?_⟩
  · simp only [HnswIndex.hnswSearchTyped,hep,hdescend,hw,bind,Except.bind]
    exact hhits
  · rw [← hrel.length_eq,length_take,hlen]
  · rw [map_eq_map_of_forall₂ (hrel.imp fun e x h => h.2),map_take,hfst]

theorem returnsNearest_of_fits (hb : b.Uniform) (hlt : ∀ a b, sp.lt a b ↔ a < b)
    (hsmall : b.vectors.length ≤ 2 * b.config.m + 1) (hm : 1 ≤ b.config.m)
    (hefc : 1 ≤ b.config.efConstruction) (hef : b.vectors.length ≤ ef)
    (h : Fits rt b levels topK ef) : ReturnsNearest rt b levels topK ef := by
  intro query _
  obtain ⟨idx,hbuild,hidx,hjoined⟩ := build_joined hb hlt h hsmall hm hefc
  have hsearch : ∃ hits, idx.searchTyped rt (idx.stored sp query) topK ef = .ok hits ∧
      hits.length = min topK b.vectors.length ∧ hits.map Prod.snd = ((b.vectors.map fun p =>
        sp.dist b.metric (idx.stored sp query) p.2).insertionSort (· ≤ ·)).take topK := by
    unfold HnswIndex.searchTyped
    split
    · rename_i hnil
      have hzero : b.vectors.length = 0 := by
        rw [← hidx.length_rowIds,← hidx.wired.neighbors,hnil]
        rfl
      obtain ⟨hits,hhits,hscan⟩ : ∃ hits, idx.bruteForceTyped rt (idx.stored sp query) topK =
          .ok hits ∧ hits.length ≤ topK ∧
            idx.Scanned sp (idx.stored sp query) topK 0 idx.rowIds.length hits :=
        outcome_false.1 (HnswIndex.outcome_bruteForce hidx.wired.sized
          (comparable_of_linear hlt _).orders topK)
      have hempty : hits = [] := length_eq_zero_iff.1 (by
        have := hscan.2.length
        have := hidx.length_rowIds
        omega)
      exact ⟨hits, hhits, by simp [hempty,hzero], by simp [hempty,length_eq_zero_iff.1 hzero]⟩
    · rename_i hne
      have hpos : 1 ≤ b.vectors.length := by
        rw [← hidx.length_rowIds,← hidx.wired.neighbors]
        exact length_pos_of_ne_nil hne
      exact hnswSearch_nearest hb hlt hidx hjoined hpos hef (h.search hpos) _
  obtain ⟨hits,hhits,hlen,hmap⟩ := hsearch
  refine ⟨idx,hits,hbuild,?_,hlen,?_⟩
  · rw [HnswIndex.search_of_unquantised hidx.fields.2.2.2.2.1,hhits]
  · rw [hmap,HnswIndex.stored,hidx.fields.2.1]
    rfl

omit [LinearOrder D] in
theorem le_limit_of_reserve {bytes : Nat} (h : rt.reserve bytes = .ok ()) : bytes ≤ rt.limit := by
  unfold Runtime.reserve at h
  split at h
  · assumption
  · cases h

theorem le_limit_of_searchLayer {idx : HnswIndex} {q : List F32} {eps : List Nat} {layer : Nat}
    {w : List (D × Nat)} (h : idx.searchLayer rt q eps ef layer = .ok w) : 32 * ef ≤ rt.limit := by
  obtain ⟨_,hreserve,-⟩ := bind_eq_ok.1 h
  have := le_limit_of_reserve hreserve
  omega

theorem config_of_setList {idx idx' : HnswIndex} {a layer : Nat} {l : List Nat}
    (h : idx.setList a layer l = .ok idx') : idx'.config = idx.config := by
  obtain ⟨_,-,h⟩ := bind_eq_ok.1 h
  cases h
  rfl

omit [LinearOrder D] in
theorem config_of_linkBacks {idx idx' : HnswIndex} {i layer : Nat} {todo : List Nat}
    (h : todo.foldlM (HnswIndex.linkBack rt i layer) idx = .ok idx') : idx'.config = idx.config := by
  induction todo generalizing idx with
  | nil =>
    cases h
    rfl
  | cons nb todo ih =>
    rw [foldlM_cons] at h
    obtain ⟨mid,hmid,h⟩ := bind_eq_ok.1 h
    obtain ⟨_,-,hmid⟩ := bind_eq_ok.1 hmid
    obtain ⟨_,-,hmid⟩ := bind_eq_ok.1 hmid
    exact (ih h).trans (config_of_setList hmid)

theorem le_limit_of_connect {idx idx' : HnswIndex} {i r : Nat} {q : List F32} {eps : List Nat}
    (h : HnswIndex.connect rt i q (r + 1) eps idx = .ok idx') :
    32 * idx.config.efConstruction ≤ rt.limit ∧ 32 * idx.config.m ≤ rt.limit := by
  induction r generalizing idx eps with
  | zero =>
    obtain ⟨w,hw,h⟩ := bind_eq_ok.1 h
    obtain ⟨selected,hselected,-⟩ := bind_eq_ok.1 h
    obtain ⟨_,hreserve,-⟩ := bind_eq_ok.1 hselected
    have hlinks := le_limit_of_reserve hreserve
    simp only [maxLinks,if_pos] at hlinks
    exact ⟨le_limit_of_searchLayer hw, by omega⟩
  | succ r ih =>
    obtain ⟨w,-,h⟩ := bind_eq_ok.1 h
    obtain ⟨selected,-,h⟩ := bind_eq_ok.1 h
    obtain ⟨set,hset,h⟩ := bind_eq_ok.1 h
    obtain ⟨mid,hmid,h⟩ := bind_eq_ok.1 h
    have hconfig := (config_of_linkBacks hmid).trans (config_of_setList hset)
    rw [← hconfig]
    exact ih h

theorem le_limit_of_build {idx : HnswIndex} (htwo : 2 ≤ b.vectors.length)
    (h : (List.range b.vectors.length).foldlM (insertNext rt) (b.unlinked levels) = .ok idx) :
    32 * b.config.efConstruction ≤ rt.limit ∧ 32 * b.config.m ≤ rt.limit := by
  obtain ⟨n,hn⟩ : ∃ n, b.vectors.length = n + 2 := ⟨b.vectors.length - 2, by omega⟩
  rw [hn,range_eq_range',List.range'_succ,List.range'_succ,foldlM_cons] at h
  obtain ⟨one,hone,h⟩ := bind_eq_ok.1 h
  rw [foldlM_cons] at h
  obtain ⟨two,htwo,-⟩ := bind_eq_ok.1 h
  obtain ⟨level,-,hone⟩ := bind_eq_ok.1 hone
  obtain ⟨q,-,hone⟩ := bind_eq_ok.1 hone
  cases hone
  obtain ⟨level',-,htwo⟩ := bind_eq_ok.1 htwo
  obtain ⟨q',-,htwo⟩ := bind_eq_ok.1 htwo
  obtain ⟨eps,-,htwo⟩ := bind_eq_ok.1 htwo
  obtain ⟨mid,hmid,-⟩ := bind_eq_ok.1 htwo
  exact le_limit_of_connect hmid

theorem fits_of_returnsNearest (hb : b.Uniform) (h : ReturnsNearest rt b levels topK ef) :
    Fits rt b levels topK ef := by
  obtain ⟨idx,hits,hbuild,hsearch,-,-⟩ := h (List.replicate b.dim 0) (length_replicate ..)
  obtain ⟨_,hlevels,hfold⟩ := bind_eq_ok.1 hbuild
  have hbuilt : Outcome (fun _ => True) (fun idx => b.Inserts levels b.vectors.length idx ∧ True)
      (b.buildSerialTyped rt levels) :=
    outcome_buildSerial hb (.inl trivial) (fun _ => .inl trivial)
      (fun _ _ _ => orders_of_fault trivial) (fun _ _ => True) trivial fun _ _ _ _ _ _ _ => trivial
  rw [hbuild] at hbuilt
  have hidx : b.Inserts levels b.vectors.length idx := hbuilt.1
  refine ⟨fun i hi => ?_, fun htwo => le_limit_of_build htwo hfold, fun hpos => ?_⟩
  · exact le_limit_of_reserve
      (eq_ok_of_forM hlevels (levels i) (mem_map_of_mem (mem_range.2 hi)))
  · have hne : idx.neighbors ≠ [] := by
      intro hnil
      have hlen := hidx.wired.neighbors
      rw [hnil,hidx.length_rowIds] at hlen
      simp only [length_nil] at hlen
      omega
    rw [HnswIndex.search_of_unquantised hidx.fields.2.2.2.2.1,HnswIndex.searchTyped,if_neg hne,
      HnswIndex.hnswSearchTyped] at hsearch
    split at hsearch
    · rename_i hnone
      have := hidx.topped.2 hnone
      omega
    · obtain ⟨eps,-,hsearch⟩ := bind_eq_ok.1 hsearch
      obtain ⟨w,hw,-⟩ := bind_eq_ok.1 hsearch
      exact le_limit_of_searchLayer hw

/-- A small index is exact exactly if its reservations are granted. -/
theorem returnsNearest_iff (hb : b.Uniform) (hlt : ∀ a b, sp.lt a b ↔ a < b)
    (hsmall : b.vectors.length ≤ 2 * b.config.m + 1) (hm : 1 ≤ b.config.m)
    (hefc : 1 ≤ b.config.efConstruction) (hef : b.vectors.length ≤ ef) :
    ReturnsNearest rt b levels topK ef ↔ Fits rt b levels topK ef :=
  ⟨fits_of_returnsNearest hb, returnsNearest_of_fits hb hlt hsmall hm hefc hef⟩

end HnswBuilder

def demoBuilder : HnswBuilder :=
  ⟨⟨1, 1, 10⟩, .euclidean, 1, [(0, [5#32]), (1, [9#32]), (2, [7#32])]⟩

theorem returnsNearest_demoBuilder :
    HnswBuilder.Fits (.standard demoSpace (2 ^ 63 - 1)) demoBuilder (fun i => i % 2) 2 3 ∧
      HnswBuilder.ReturnsNearest (.standard demoSpace (2 ^ 63 - 1)) demoBuilder (fun i => i % 2) 2 3 := by
  have hfits : HnswBuilder.Fits (.standard demoSpace (2 ^ 63 - 1)) demoBuilder (fun i => i % 2) 2 3 := by
    refine ⟨fun i _ => ?_, fun _ => ?_, fun _ => ?_⟩
    · show 24 * (i % 2 + 1) ≤ 2 ^ 63 - 1
      omega
    · exact ⟨show 32 * 1 ≤ 2 ^ 63 - 1 by decide, show 32 * 1 ≤ 2 ^ 63 - 1 by decide⟩
    · show 32 * 3 ≤ 2 ^ 63 - 1
      decide
  exact ⟨hfits, (HnswBuilder.returnsNearest_iff (by unfold HnswBuilder.Uniform; decide) demoSpace_lt
    (by decide) (by decide) (by decide) (by decide)).2 hfits⟩

/-- With `m = 1` the random level is `1 / ln 1`, the largest `usize`: no vector of so many lists can be
made, whatever the memory. -/
theorem levels_of_one_link_overflow :
    ¬HnswBuilder.ReturnsNearest (.standard demoSpace (2 ^ 63 - 1)) demoBuilder
      (fun _ => 2 ^ 64 - 1) 1 3 := by
  intro h
  have hfits := HnswBuilder.fits_of_returnsNearest (by unfold HnswBuilder.Uniform; decide) h
  have hlevel : 24 * (2 ^ 64 - 1 + 1) ≤ 2 ^ 63 - 1 := hfits.levels 0 (by decide)
  exact absurd hlevel (by decide)

end AiLake.Hnsw
