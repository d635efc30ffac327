import AiLake.IvfPqSafety

/-! Training puts every row into one inverted list with codes of its own, and a search of all lists
finds it again, also after writing and reading. -/
namespace AiLake

open Bincode Binary Ranking List

/-- Between one and `k` centroids, of the dimension of the vectors. -/
structure KMeans.Lawful (kmeans : KMeans) : Prop where
  pos : ∀ vectors k maxIter, vectors ≠ [] → 1 ≤ k → 1 ≤ (kmeans vectors k maxIter).length
  le : ∀ vectors k maxIter, vectors ≠ [] → 1 ≤ k → (kmeans vectors k maxIter).length ≤ k
  dim : ∀ vectors k maxIter d, (∀ v ∈ vectors, v.length = d) →
    ∀ c ∈ kmeans vectors k maxIter, c.length = d

theorem findValidPqM_pos (requested dim : Nat) : 1 ≤ findValidPqM requested dim := by
  induction requested with
  | zero => exact le_rfl
  | succ m ih =>
    unfold findValidPqM
    split
    · omega
    · exact ih

theorem findValidPqM_dvd (requested dim : Nat) : findValidPqM requested dim ∣ dim := by
  induction requested with
  | zero => exact one_dvd dim
  | succ m ih =>
    unfold findValidPqM
    split
    · exact Nat.dvd_of_mod_eq_zero ‹_›
    · exact ih

theorem FloatOps.nearestIdx_lt (ops : FloatOps) (v : List F32) {centroids : List (List F32)}
    (h : centroids ≠ []) : ops.nearestIdx v centroids < centroids.length := by
  unfold nearestIdx
  cases hhead : (sorted (fun p => (ops.l2Sq v p.1).totalOrder) centroids.zipIdx).head? with
  | none => exact length_pos_of_ne_nil h
  | some p =>
    have hp := mem_sorted.1 (mem_of_head? hhead)
    exact (List.getElem?_eq_some_iff.1 (List.mem_zipIdx_iff_getElem?.1 hp)).1

/-! The codebooks. -/

namespace PQCodebook

/-- `m` sub-vectors make up the dimension, and each has between one and 256 centroids. -/
structure Trained (pq : PQCodebook) (m dim : Nat) : Prop where
  numSubvectors : pq.numSubvectors = m
  subvectors : m * pq.subDim = dim
  length : pq.centroids.length = m
  centroids : ∀ cs ∈ pq.centroids, cs ≠ [] ∧ cs.length ≤ 256
  dim : ∀ cs ∈ pq.centroids, ∀ c ∈ cs, c.length = pq.subDim

variable {ops : FloatOps} {kmeans : KMeans} {pq : PQCodebook} {m dim : Nat}

theorem Trained.covers (h : pq.Trained m dim) : pq.Covers dim := by
  refine ⟨?_,?_⟩
  · rw [h.numSubvectors,h.length]
  · rw [h.numSubvectors,h.subvectors]

theorem trainCentroids_eq {vectors : List (List F32)} (hvectors : vectors ≠ [])
    (hkmeans : kmeans.Lawful) {subDim : Nat} (hdim : ∀ v ∈ vectors, v.length = m * subDim)
    {k : Nat} (hk : 1 ≤ k) (maxIter : Nat) :
    ∃ centroids, trainCentroids kmeans vectors m k subDim maxIter = some centroids ∧
      centroids.length = m ∧
        ∀ cs ∈ centroids, (cs ≠ [] ∧ cs.length ≤ k) ∧ ∀ c ∈ cs, c.length = subDim := by
  have hsome : (trainCentroids kmeans vectors m k subDim maxIter).isSome := by
    refine Checked.isSome_mapM.2 fun i hi => ?_
    have hsub : (vectors.mapM fun v =>
        Checked.slice v (i * subDim) (i * subDim + subDim)).isSome := by
      refine Checked.isSome_mapM.2 fun v hv => Checked.isSome_slice.2 ⟨Nat.le_add_right _ _, ?_⟩
      have hle := Nat.mul_le_mul_right subDim (mem_range.1 hi)
      rw [Nat.succ_mul] at hle
      rw [hdim v hv]
      exact hle
    obtain ⟨subVecs,hsubVecs⟩ := Option.isSome_iff_exists.1 hsub
    simp [hsubVecs]
  obtain ⟨centroids,hcentroids⟩ := Option.isSome_iff_exists.1 hsome
  refine ⟨centroids, hcentroids, ?_, fun cs hcs => ?_⟩
  · rw [Checked.length_of_mapM hcentroids,length_range]
  · obtain ⟨i,hi⟩ := getElem?_of_mem hcs
    rw [Checked.getElem?_of_mapM hcentroids] at hi
    obtain ⟨j,-,hj⟩ := Option.bind_eq_some_iff.1 hi
    obtain ⟨subVecs,hsubVecs,hkm⟩ := Option.bind_eq_some_iff.1 hj
    obtain rfl := Option.some.inj hkm
    have hne : subVecs ≠ [] := by
      rw [← length_pos_iff,Checked.length_of_mapM hsubVecs]
      exact length_pos_of_ne_nil hvectors
    have hmin : 1 ≤ min k vectors.length :=
      le_min hk (length_pos_of_ne_nil hvectors)
    refine ⟨⟨ne_nil_of_length_pos (hkmeans.pos _ _ _ hne hmin),
      (hkmeans.le _ _ _ hne hmin).trans (min_le_left _ _)⟩, hkmeans.dim _ _ _ _ fun v hv => ?_⟩
    obtain ⟨k,hk⟩ := getElem?_of_mem hv
    rw [Checked.getElem?_of_mapM hsubVecs] at hk
    obtain ⟨u,-,hslice⟩ := Option.bind_eq_some_iff.1 hk
    rw [Checked.length_of_slice hslice,Nat.add_sub_cancel_left]

theorem trainWithKmeans_eq {vectors : List (List F32)} (hvectors : vectors ≠ [])
    (hkmeans : kmeans.Lawful) (hdim : ∀ v ∈ vectors, v.length = dim) (hm : 1 ≤ m) (hdvd : m ∣ dim)
    {k : Nat} (hk : 1 ≤ k) (hk' : k ≤ 256) (maxIter : Nat) :
    ∃ pq, trainWithKmeans kmeans vectors m k maxIter = pure pq ∧ pq.Trained m dim ∧
      pq.numCentroids = k := by
  obtain ⟨subDim,rfl⟩ := hdvd
  obtain ⟨centroids,hcentroids,hlength,hcs⟩ :=
    trainCentroids_eq hvectors hkmeans hdim hk maxIter
  refine ⟨⟨m,k,subDim,centroids⟩, ?_, ⟨rfl, rfl, hlength, fun cs h => ?_,
    fun cs h => (hcs cs h).2⟩, rfl⟩
  · cases vectors with
    | nil => exact absurd rfl hvectors
    | cons first rest =>
      have hfirst : first.length = m * subDim := hdim first mem_cons_self
      have hdiv : m * subDim / m = subDim := Nat.mul_div_cancel_left _ hm
      have hm0 : m ≠ 0 := by omega
      simp only [trainWithKmeans,hfirst,Nat.mul_mod_right,ne_eq,not_true_eq_false,if_false,hm0,
        hdiv,hcentroids]
      rfl
  · exact ⟨(hcs cs h).1.1, (hcs cs h).1.2.trans hk'⟩

theorem Trained.encode_eq (h : pq.Trained m dim) {v : List F32} (hv : v.length = dim) :
    ∃ codes, pq.encode ops v = some codes ∧ codes.length = m ∧
      ∀ i < m, ∃ c, codes[i]? = some c ∧ pq.Names i c := by
  have hcovers : pq.Covers v.length := by
    rw [hv]
    exact h.covers
  have hsome : (pq.encode ops v).isSome := by
    refine Checked.isSome_mapM.2 fun i hi => ?_
    obtain ⟨hslice,hlt⟩ := covers_iff.1 hcovers i (mem_range.1 hi)
    obtain ⟨sub,hsub⟩ := Option.isSome_iff_exists.1
      (Checked.isSome_slice.2 ⟨Nat.le_add_right (i * pq.subDim) pq.subDim, hslice⟩)
    simp [hsub,getElem?_eq_getElem hlt]
  obtain ⟨codes,hcodes⟩ := Option.isSome_iff_exists.1 hsome
  have hlen : codes.length = m := by
    rw [Checked.length_of_mapM hcodes,length_range,h.numSubvectors]
  refine ⟨codes, hcodes, hlen, fun i hi => ?_⟩
  have hi' : i < pq.numSubvectors := by rw [h.numSubvectors]; exact hi
  have hget := Checked.getElem?_of_mapM hcodes i
  rw [getElem?_range hi',Option.bind_some,getElem?_eq_getElem (by omega)] at hget
  obtain ⟨sub,-,hget⟩ := Option.bind_eq_some_iff.1 hget.symm
  obtain ⟨cs,hcs,hget⟩ := Option.bind_eq_some_iff.1 hget
  obtain ⟨hne,hle⟩ := h.centroids cs (mem_of_getElem? hcs)
  have hnear := ops.nearestIdx_lt sub hne
  refine ⟨_, getElem?_eq_getElem (by omega), hi', cs, hcs, ?_⟩
  rw [← Option.some.inj hget,UInt8.toNat_ofNat',Nat.mod_eq_of_lt (by omega)]
  exact hnear

end PQCodebook

/-- The row ids of a list and their codes: `m` for each, all of them names of centroids. -/
structure RowsCoded (pq : PQCodebook) (m : Nat) (rowIds : List UInt64) (codes : List UInt8) :
    Prop where
  length : codes.length = rowIds.length * m
  names : ∀ j < rowIds.length, ∀ i < m, ∃ c, codes[j * m + i]? = some c ∧ pq.Names i c

theorem RowsCoded.nil (pq : PQCodebook) (m : Nat) : RowsCoded pq m [] [] := ⟨by simp, by simp⟩

theorem RowsCoded.snoc {pq : PQCodebook} {m : Nat} {rowIds : List UInt64} {codes : List UInt8}
    (h : RowsCoded pq m rowIds codes) (rowId : UInt64) {cs : List UInt8} (hlen : cs.length = m)
    (hcs : ∀ i < m, ∃ c, cs[i]? = some c ∧ pq.Names i c) :
    RowsCoded pq m (rowIds ++ [rowId]) (codes ++ cs) := by
  refine ⟨?_, fun j hj i hi => ?_⟩
  · rw [length_append,length_append,h.length,hlen,length_singleton,Nat.succ_mul]
  · rw [length_append,length_singleton] at hj
    rcases Nat.lt_succ_iff_lt_or_eq.1 hj with hj | rfl
    · obtain ⟨c,hc,hnames⟩ := h.names j hj i hi
      have hlt := (List.getElem?_eq_some_iff.1 hc).1
      exact ⟨c, by rw [getElem?_append_left hlt,hc], hnames⟩
    · obtain ⟨c,hc,hnames⟩ := hcs i hi
      refine ⟨c,?_,hnames⟩
      rw [getElem?_append_right (by rw [h.length]; omega),h.length,Nat.add_sub_cancel_left]
      exact hc

section Lists

variable {α β : Type}

theorem forall₂_modify {R : α → β → Prop} {l : List α} {l' : List β} (h : List.Forall₂ R l l')
    {f : α → α} {g : β → β} (hR : ∀ a b, R a b → R (f a) (g b)) (i : Nat) :
    List.Forall₂ R (l.modify i f) (l'.modify i g) := by
  induction h generalizing i with
  | nil => simp
  | cons hab hrest ih =>
    cases i with
    | zero => exact .cons (hR _ _ hab) hrest
    | succ i => exact .cons hab (ih i)

theorem perm_flatten_modify {l : List (List α)} {i : Nat} (hi : i < l.length) (a : α) :
    (l.modify i (· ++ [a])).flatten.Perm (l.flatten ++ [a]) := by
  induction l generalizing i with
  | nil => simp at hi
  | cons x l ih =>
    cases i with
    | zero =>
      simp only [modify_zero_cons,flatten_cons,append_assoc]
      exact perm_append_comm.append_left x
    | succ i =>
      simp only [modify_succ_cons,flatten_cons,append_assoc]
      exact (ih (by simpa using hi)).append_left x

end Lists

namespace IvfPqIndex

variable {ops : FloatOps} {kmeans : KMeans} {rowIds : List UInt64} {cb : IvfPqCodebook}

/-- At least one and at most `nlist` coarse centroids of the dimension, and a trained product
quantiser. -/
structure Codebook (cb : IvfPqCodebook) : Prop where
  coarse : cb.coarseCentroids ≠ []
  le : cb.coarseCentroids.length ≤ cb.nlist
  dim : ∀ c ∈ cb.coarseCentroids, c.length = cb.dim
  pq : cb.pq.Trained cb.pqM cb.dim

variable (ops) in
theorem pqInput_eq {coarse vecs : List (List F32)} {dim : Nat} (hcoarse : coarse ≠ [])
    (hdim : ∀ c ∈ coarse, c.length = dim) (hvecs : ∀ v ∈ vecs, v.length = dim) (residual : Bool) :
    ∃ input, pqInput ops residual coarse vecs = some input ∧ input.length = vecs.length ∧
      ∀ v ∈ input, v.length = dim := by
  cases residual with
  | false => exact ⟨vecs,rfl,rfl,hvecs⟩
  | true =>
    have hmap : pqInput ops true coarse vecs = some (vecs.map fun v =>
        ops.residual v (coarse.get ⟨_, ops.nearestIdx_lt v hcoarse⟩)) := by
      refine Checked.mapM_eq_map fun v _ => ?_
      rw [getElem?_eq_getElem (ops.nearestIdx_lt v hcoarse)]
      rfl
    refine ⟨_, hmap, length_map _, fun u hu => ?_⟩
    obtain ⟨v,hv,rfl⟩ := mem_map.1 hu
    have hcentroid := hdim _ (coarse.get_mem ⟨_, ops.nearestIdx_lt v hcoarse⟩)
    rw [FloatOps.length_residual (hcentroid.trans (hvecs v hv).symm),hvecs v hv]

variable (ops) in
theorem trainCodebook_eq {vectors : List (List F32)} (hvectors : vectors ≠ [])
    (hkmeans : kmeans.Lawful) {dim : Nat} (hdim : ∀ v ∈ vectors, v.length = dim)
    (metric : VectorMetric) {config : IvfPqConfig} (hnlist : 1 ≤ config.nlist)
    (hpqK : 1 ≤ config.pqK) :
    ∃ cb, trainCodebook ops kmeans vectors metric config = pure cb ∧ Codebook cb ∧ cb.dim = dim ∧
      cb.nlist ≤ vectors.length ∧ cb.nprobe ≤ cb.nlist ∧ cb.pqM = findValidPqM config.pqM dim ∧
      cb.pq.numCentroids ≤ 256 := by
  have hvecs (v : List F32) (hv : v ∈ vectors.map (ops.prepared metric)) : v.length = dim := by
    obtain ⟨u,hu,rfl⟩ := mem_map.1 hv
    rw [FloatOps.length_prepared,hdim u hu]
  have hne : vectors.map (ops.prepared metric) ≠ [] := by simpa using hvectors
  have hlists : 1 ≤ min config.nlist vectors.length :=
    le_min hnlist (length_pos_of_ne_nil hvectors)
  have hcoarse : kmeans (vectors.map (ops.prepared metric)) (min config.nlist vectors.length)
      config.maxIter ≠ [] :=
    ne_nil_of_length_pos (hkmeans.pos _ _ _ hne hlists)
  have hcoarseDim := hkmeans.dim _ (min config.nlist vectors.length) config.maxIter dim hvecs
  obtain ⟨input,hinput,hlength,hinputDim⟩ :=
    pqInput_eq ops hcoarse hcoarseDim hvecs config.residual
  have hinputNe : input ≠ [] := by
    rw [← length_pos_iff,hlength]
    exact length_pos_of_ne_nil hne
  obtain ⟨pq,hpq,htrained,hcentroids⟩ := PQCodebook.trainWithKmeans_eq hinputNe hkmeans hinputDim
    (findValidPqM_pos config.pqM dim) (findValidPqM_dvd config.pqM dim)
    (le_min hpqK (by omega : 1 ≤ 256)) (min_le_right _ _) config.maxIter
  let cb : IvfPqCodebook := ⟨kmeans (vectors.map (ops.prepared metric))
    (min config.nlist vectors.length) config.maxIter, pq, min config.nlist vectors.length,
    min config.nprobe (min config.nlist vectors.length), findValidPqM config.pqM dim, dim, metric,
    config.residual⟩
  refine ⟨cb, ?_, ⟨hcoarse, hkmeans.le _ _ _ hne hlists, hcoarseDim, htrained⟩, rfl,
    min_le_right _ _, min_le_right _ _, rfl, ?_⟩
  · cases vectors with
    | nil => exact absurd rfl hvectors
    | cons first rest =>
      have hfirst : first.length = dim := hdim first mem_cons_self
      simp only [trainCodebook,hfirst,hinput,Fallible.lift_some,pure_bind,hpq]
      rfl
  · exact hcentroids.le.trans (min_le_right _ _)

structure Filled (cb : IvfPqCodebook) (lists : InvertedLists) (rowIds : List UInt64) : Prop where
  length : lists.rowIds.length = cb.nlist
  coded : List.Forall₂ (RowsCoded cb.pq cb.pqM) lists.rowIds lists.codes
  rows : lists.rowIds.flatten.Perm rowIds
  beyond : (lists.rowIds.drop cb.coarseCentroids.length).flatten = []

theorem filled_start (cb : IvfPqCodebook) :
    Filled cb ⟨List.replicate cb.nlist [], List.replicate cb.nlist []⟩ [] := by
  refine ⟨length_replicate,?_,?_,?_⟩
  · rw [forall₂_iff_get]
    refine ⟨by simp, fun i h₁ h₂ => ?_⟩
    simp only [get_eq_getElem,getElem_replicate]
    exact RowsCoded.nil _ _
  · simp
  · simp [drop_replicate]

variable (ops) in
theorem encodeRow_eq (hcb : Codebook cb) {v : List F32} (hv : v.length = cb.dim) {list : Nat}
    (hlist : list < cb.coarseCentroids.length) :
    ∃ codes, encodeRow ops cb v list = some codes ∧ codes.length = cb.pqM ∧
      ∀ i < cb.pqM, ∃ c, codes[i]? = some c ∧ cb.pq.Names i c := by
  unfold encodeRow
  split
  · have hcentroid := hcb.dim _ (getElem_mem hlist)
    rw [getElem?_eq_getElem hlist]
    refine hcb.pq.encode_eq ?_
    rw [FloatOps.length_residual (hcentroid.trans hv.symm),hv]
  · exact hcb.pq.encode_eq hv

variable (ops) in
theorem Filled.pushRow (hcb : Codebook cb) {lists : InvertedLists} {done : List UInt64}
    (h : Filled cb lists done) {v : List F32} (hv : v.length = cb.dim) {i : Nat} {rowId : UInt64}
    (hrow : rowIds[i]? = some rowId) :
    ∃ lists', IvfPqIndex.pushRow ops cb rowIds lists (v, i) = some lists' ∧
      Filled cb lists' (done ++ [rowId]) := by
  have hnear := ops.nearestIdx_lt v hcb.coarse
  obtain ⟨codes,hcodes,hlen,hnames⟩ := encodeRow_eq ops hcb hv hnear
  have hlist : ops.nearestIdx v cb.coarseCentroids < lists.rowIds.length := by
    rw [h.length]
    exact hnear.trans_le hcb.le
  have hlist' : ops.nearestIdx v cb.coarseCentroids < lists.codes.length := by
    rwa [← h.coded.length_eq]
  let list := ops.nearestIdx v cb.coarseCentroids
  refine ⟨⟨lists.rowIds.modify list (· ++ [rowId]), lists.codes.modify list (· ++ codes)⟩, ?_,
    ⟨?_,?_,?_,?_⟩⟩
  · simp only [IvfPqIndex.pushRow,hcodes,hrow,Checked.modify,if_pos hlist,if_pos hlist']
    rfl
  · rw [length_modify]
    exact h.length
  · exact forall₂_modify h.coded (fun ids cs hcoded => hcoded.snoc rowId hlen hnames) _
  · exact (perm_flatten_modify hlist rowId).trans (h.rows.append_right [rowId])
  · change ((lists.rowIds.modify list (· ++ [rowId])).drop _).flatten = []
    rw [drop_modify_of_lt _ _ _ _ hnear]
    exact h.beyond

variable (ops) in
theorem Filled.foldlM (hcb : Codebook cb) {vecs : List (List F32)}
    (hvecs : ∀ v ∈ vecs, v.length = cb.dim) {k : Nat} (hlen : rowIds.length = k + vecs.length)
    {lists : InvertedLists} (h : Filled cb lists (rowIds.take k)) :
    ∃ lists', (vecs.zipIdx k).foldlM (IvfPqIndex.pushRow ops cb rowIds) lists = some lists' ∧
      Filled cb lists' rowIds := by
  induction vecs generalizing k lists with
  | nil =>
    rw [take_of_length_le (by simp [hlen])] at h
    exact ⟨lists,rfl,h⟩
  | cons v vecs ih =>
    have hk : k < rowIds.length := by simp [hlen]
    obtain ⟨lists₁,hpush,hfilled⟩ :=
      h.pushRow ops hcb (hvecs v mem_cons_self) (getElem?_eq_getElem hk)
    rw [take_append_getElem hk] at hfilled
    obtain ⟨lists₂,hfold,hdone⟩ := ih (fun u hu => hvecs u (mem_cons_of_mem _ hu))
      (by simp only [length_cons] at hlen; omega) hfilled
    refine ⟨lists₂,?_,hdone⟩
    rw [zipIdx_cons,foldlM_cons,hpush]
    exact hfold

/-! Searches. -/

/-- Every row id is in one list, with codes that name centroids, and a search over all lists returns
each row id once. -/
structure KeepsRows (ops : FloatOps) (idx : IvfPqIndex) (rowIds : List UInt64) : Prop where
  once : idx.invRowIds.flatten.Perm rowIds
  codes : List.Forall₂ (RowsCoded idx.pq idx.config.pqM) idx.invRowIds idx.invCodes
  found : ∀ sortCells sortHits query topK nprobe, query.length = idx.dim →
    idx.config.nlist ≤ nprobe → rowIds.length ≤ topK →
      ∃ hits, idx.search ops sortCells sortHits query topK (some nprobe) = some hits ∧
        (hits.map Prod.fst).Perm rowIds

variable {idx : IvfPqIndex} {q : List F32} {globalAdc : List (List F32)} {list : Nat}

theorem rowIds_of_scanList {hits : List (UInt64 × F32)}
    (h : idx.scanList ops q globalAdc list = some hits) :
    idx.invRowIds[list]? = some (hits.map Prod.fst) := by
  obtain ⟨rowIds,hids,h⟩ := Option.bind_eq_some_iff.1 h
  obtain ⟨codes,-,h⟩ := Option.bind_eq_some_iff.1 h
  obtain ⟨table,-,h⟩ := Option.bind_eq_some_iff.1 h
  have hrel : List.Forall₂ (fun row hit => row.1 = hit.1) rowIds.zipIdx hits := by
    refine (Checked.mapM_eq_some.1 h).imp fun row hit hrow => ?_
    obtain ⟨cs,-,hrow⟩ := Option.bind_eq_some_iff.1 hrow
    obtain ⟨dist,-,hrow⟩ := Option.bind_eq_some_iff.1 hrow
    rw [← Option.some.inj hrow]
  have hmap : rowIds.zipIdx.map Prod.fst = hits.map Prod.fst := by
    rw [← forall₂_eq_eq_eq,forall₂_map_left_iff,forall₂_map_right_iff]
    exact hrel
  rw [hids,← hmap,zipIdx_map_fst]

variable (ops) in
theorem map_fst_cells (idx : IvfPqIndex) (q : List F32) :
    (idx.cells ops q).map Prod.fst = List.range idx.coarseCentroids.length := by
  have hsnd : (idx.cells ops q).map Prod.fst = idx.coarseCentroids.zipIdx.map Prod.snd := by
    rw [cells,map_map]
    rfl
  rw [hsnd,zipIdx_map_snd,range_eq_range']

theorem flatMap_range_getD (l : List (List UInt64)) (n : Nat) :
    (List.range n).flatMap (fun i => (l[i]?).getD []) = (l.take n).flatten := by
  induction n with
  | zero => simp
  | succ n ih =>
    rw [range_succ,flatMap_append,ih,take_add_one,flatten_append,
      flatMap_singleton]
    cases l[n]? <;> simp

theorem perm_of_scanLists {cells : List (Nat × F32)} (hcells : cells.Perm (idx.cells ops q))
    {candidates : List (List (UInt64 × F32))}
    (h : cells.mapM (fun cell => idx.scanList ops q globalAdc cell.1) = some candidates) :
    (candidates.flatten.map Prod.fst).Perm
      (idx.invRowIds.take idx.coarseCentroids.length).flatten := by
  have hrel : List.Forall₂ (fun cell hits => (idx.invRowIds[cell.1]?).getD [] = hits.map Prod.fst)
      cells candidates := by
    refine (Checked.mapM_eq_some.1 h).imp fun cell hits hscan => ?_
    rw [rowIds_of_scanList hscan,Option.getD_some]
  have hmap : cells.map (fun cell => (idx.invRowIds[cell.1]?).getD []) =
      candidates.map (·.map Prod.fst) := by
    rw [← forall₂_eq_eq_eq,forall₂_map_left_iff,forall₂_map_right_iff]
    exact hrel
  have hflat : candidates.flatten.map Prod.fst =
      (cells.map Prod.fst).flatMap fun i => (idx.invRowIds[i]?).getD [] := by
    rw [map_flatten,← hmap,flatMap_map,flatMap_def]
  rw [hflat,← flatMap_range_getD,← map_fst_cells ops idx q]
  exact (hcells.map Prod.fst).flatMap_right _

structure Built (idx : IvfPqIndex) (rowIds : List UInt64) : Prop where
  le : idx.coarseCentroids.length ≤ idx.config.nlist
  dim : ∀ c ∈ idx.coarseCentroids, c.length = idx.dim
  pq : idx.pq.Trained idx.config.pqM idx.dim
  length : idx.invRowIds.length = idx.config.nlist
  coded : List.Forall₂ (RowsCoded idx.pq idx.config.pqM) idx.invRowIds idx.invCodes
  rows : idx.invRowIds.flatten.Perm rowIds
  beyond : (idx.invRowIds.drop idx.coarseCentroids.length).flatten = []
  residual : idx.config.residual = idx.residual

theorem Built.listFits (h : Built idx rowIds) (hlist : list < idx.coarseCentroids.length) :
    idx.ListFits list := by
  have hlt : list < idx.invRowIds.length := by
    rw [h.length]
    exact hlist.trans_le h.le
  have hlt' : list < idx.invCodes.length := by rwa [← h.coded.length_eq]
  have hcoded : RowsCoded idx.pq idx.config.pqM idx.invRowIds[list] idx.invCodes[list] :=
    (forall₂_iff_get.1 h.coded).2 list hlt hlt'
  exact ⟨_, _, getElem?_eq_getElem hlt, getElem?_eq_getElem hlt', fun _ => h.pq.covers,
    hcoded.names⟩

theorem Built.keepsRows (h : Built idx rowIds) : KeepsRows ops idx rowIds := by
  refine ⟨h.rows, h.coded, fun sortCells sortHits query topK nprobe hquery hnprobe htop => ?_⟩
  have hsome : (idx.search ops sortCells sortHits query topK (some nprobe)).isSome := by
    refine (isSome_search h.dim _ _ hquery _ _).2 ⟨fun _ => h.pq.covers, fun cell hcell => ?_⟩
    have hmem := (sortCells.perm _).mem_iff.1 (mem_of_mem_take hcell)
    exact h.listFits (mem_cells hmem)
  obtain ⟨hits,hhits⟩ := Option.isSome_iff_exists.1 hsome
  refine ⟨hits,hhits,?_⟩
  unfold search at hhits
  obtain ⟨globalAdc,-,hsearch⟩ := Option.bind_eq_some_iff.1 hhits
  obtain ⟨candidates,hcandidates,hsearch⟩ := Option.bind_eq_some_iff.1 hsearch
  -- All cells are probed, and the lists beyond them are empty.
  have hcells : (sortCells.sort (idx.cells ops (ops.prepared idx.metric query))).length ≤
      min nprobe idx.config.nlist := by
    rw [(sortCells.perm _).length_eq,cells,length_map,length_zipIdx]
    exact le_min (h.le.trans hnprobe) h.le
  rw [Option.getD_some,take_of_length_le hcells] at hcandidates
  have hall : (candidates.flatten.map Prod.fst).Perm rowIds := by
    refine (perm_of_scanLists (sortCells.perm _) hcandidates).trans ?_
    have hsplit := congrArg List.flatten
      (take_append_drop idx.coarseCentroids.length idx.invRowIds)
    rw [flatten_append,h.beyond,append_nil] at hsplit
    rw [hsplit]
    exact h.rows
  have hperm := sortHits.perm candidates.flatten
  have hlen : (sortHits.sort candidates.flatten).length ≤ topK := by
    have hcount := hall.length_eq
    rw [length_map] at hcount
    rwa [hperm.length_eq,hcount]
  rw [← Option.some.inj hsearch,take_of_length_le hlen]
  exact (hperm.map Prod.fst).trans hall

variable (ops) in
theorem buildWithCodebook_eq (hcb : Codebook cb) {vectors : List (List F32)}
    (hvectors : vectors ≠ []) (hdim : ∀ v ∈ vectors, v.length = cb.dim)
    (hlen : rowIds.length = vectors.length) :
    ∃ idx, buildWithCodebook ops rowIds vectors cb = pure idx ∧ Built idx rowIds ∧
      idx.dim = cb.dim ∧ idx.config = ⟨cb.nlist, cb.nprobe, cb.pqM, cb.pq.numCentroids, 0, cb.residual⟩ ∧
      idx.pq = cb.pq := by
  have hvecs (v : List F32) (hv : v ∈ vectors.map (ops.prepared cb.metric)) : v.length = cb.dim := by
    obtain ⟨u,hu,rfl⟩ := mem_map.1 hv
    rw [FloatOps.length_prepared,hdim u hu]
  have hlen' : rowIds.length = 0 + (vectors.map (ops.prepared cb.metric)).length := by
    rw [length_map,hlen,Nat.zero_add]
  obtain ⟨lists,hlists,hfilled⟩ := Filled.foldlM ops hcb hvecs hlen' (filled_start cb)
  refine ⟨⟨⟨cb.nlist,cb.nprobe,cb.pqM,cb.pq.numCentroids,0,cb.residual⟩,cb.metric,cb.dim,
    cb.coarseCentroids,cb.pq,lists.rowIds,lists.codes,cb.residual⟩,?_,?_,rfl,rfl,rfl⟩
  · have hnil : ¬vectors.isEmpty = true := by simpa using hvectors
    rw [buildWithCodebook,if_neg hnil]
    simp only [hlists,Fallible.lift_some,pure_bind]
  · exact ⟨hcb.le,hcb.dim,hcb.pq,hfilled.length,hfilled.coded,hfilled.rows,hfilled.beyond,rfl⟩

end IvfPqIndex

/-! Writing and reading. -/

/-- Every number and every length is a `usize`. -/
structure IvfPqSnapshotCore.Sized (core : IvfPqSnapshotCore) : Prop where
  nlist : core.nlist < 2 ^ 64
  nprobe : core.nprobe < 2 ^ 64
  pqM : core.pqM < 2 ^ 64
  pqK : core.pqK < 2 ^ 64
  maxIter : core.maxIter < 2 ^ 64
  dim : core.dim < 2 ^ 64
  coarseFlat : core.coarseFlat.length < 2 ^ 64
  numSubvectors : core.pq.numSubvectors < 2 ^ 64
  numCentroids : core.pq.numCentroids < 2 ^ 64
  subDim : core.pq.subDim < 2 ^ 64
  codebook : core.pq.centroids.length < 2 ^ 64
  centroids : ∀ cs ∈ core.pq.centroids, cs.length < 2 ^ 64 ∧ ∀ c ∈ cs, c.length < 2 ^ 64
  rowIdLists : core.invRowIds.length < 2 ^ 64
  rowIds : ∀ l ∈ core.invRowIds, l.length < 2 ^ 64
  codeLists : core.invCodes.length < 2 ^ 64
  codes : ∀ l ∈ core.invCodes, l.length < 2 ^ 64

theorem IvfPqSnapshotCore.Sized.reads {core : IvfPqSnapshotCore} (h : core.Sized) :
    Reads IvfPqSnapshotCore.read core.toBytes core := by
  have hcentroids : Reads (readVec (readVec (readVec readF32))) (vec (vec (vec f32)) core.pq.centroids)
      core.pq.centroids :=
    reads_readVec h.codebook fun cs hcs => reads_readVec (h.centroids cs hcs).1 fun c hc =>
      reads_readVec ((h.centroids cs hcs).2 c hc) fun x _ => reads_readF32 x
  have hpq : Reads PQCodebook.read core.pq.toBytes core.pq :=
    (reads_readUsize h.numSubvectors).bind ((reads_readUsize h.numCentroids).bind
      ((reads_readUsize h.subDim).bind (hcentroids.map _)))
  have hcoarse : Reads (readVec readF32) (vec f32 core.coarseFlat) core.coarseFlat :=
    reads_readVec h.coarseFlat fun x _ => reads_readF32 x
  have hrows : Reads (readVec (readVec readU64)) (vec (vec u64) core.invRowIds) core.invRowIds :=
    reads_readVec h.rowIdLists fun l hl => reads_readVec (h.rowIds l hl) fun x _ => reads_readU64 x
  have hcodes : Reads (readVec (readVec readU8)) (vec (vec fun b => [b]) core.invCodes)
      core.invCodes :=
    reads_readVec h.codeLists fun l hl => reads_readVec (h.codes l hl) fun x _ => reads_readU8 x
  exact (reads_readUsize h.nlist).bind ((reads_readUsize h.nprobe).bind
    ((reads_readUsize h.pqM).bind ((reads_readUsize h.pqK).bind ((reads_readUsize h.maxIter).bind
      ((reads_readUsize h.dim).bind ((reads_readU8 core.metric).bind (hcoarse.bind (hpq.bind
        (hrows.bind (hcodes.map _))))))))))

theorem IvfPqSnapshotCore.dim_of_read {core core' : IvfPqSnapshotCore} {more rest : Bytes}
    (h : IvfPqSnapshotCore.read (core.toBytes ++ more) = some (core', rest)) :
    core'.dim = core.dim % 2 ^ 64 := by
  simp only [IvfPqSnapshotCore.toBytes,append_assoc] at h
  obtain ⟨nlist,r₁,h₁,h⟩ := bind_eq_some.1 h
  obtain ⟨-,rfl⟩ := Prod.mk.inj (Option.some.inj ((readUsize_usize _ _).symm.trans h₁))
  obtain ⟨nprobe,r₂,h₂,h⟩ := bind_eq_some.1 h
  obtain ⟨-,rfl⟩ := Prod.mk.inj (Option.some.inj ((readUsize_usize _ _).symm.trans h₂))
  obtain ⟨pqM,r₃,h₃,h⟩ := bind_eq_some.1 h
  obtain ⟨-,rfl⟩ := Prod.mk.inj (Option.some.inj ((readUsize_usize _ _).symm.trans h₃))
  obtain ⟨pqK,r₄,h₄,h⟩ := bind_eq_some.1 h
  obtain ⟨-,rfl⟩ := Prod.mk.inj (Option.some.inj ((readUsize_usize _ _).symm.trans h₄))
  obtain ⟨maxIter,r₅,h₅,h⟩ := bind_eq_some.1 h
  obtain ⟨-,rfl⟩ := Prod.mk.inj (Option.some.inj ((readUsize_usize _ _).symm.trans h₅))
  obtain ⟨dim,r₆,h₆,h⟩ := bind_eq_some.1 h
  obtain ⟨rfl,rfl⟩ := Prod.mk.inj (Option.some.inj ((readUsize_usize _ _).symm.trans h₆))
  obtain ⟨metric,r₇,-,h⟩ := bind_eq_some.1 h
  obtain ⟨coarse,r₈,-,h⟩ := bind_eq_some.1 h
  obtain ⟨pq,r₉,-,h⟩ := bind_eq_some.1 h
  obtain ⟨rowIds,r₁₀,-,h⟩ := bind_eq_some.1 h
  obtain ⟨codes,r₁₁,-,h⟩ := bind_eq_some.1 h
  obtain ⟨rfl,-⟩ := pure_eq_some.1 h
  rfl

namespace IvfPqSerializer

theorem u8ToMetric_metricToU8 (metric : VectorMetric) :
    u8ToMetric (metricToU8 metric) = .ok metric := by
  cases metric <;> decide

theorem fromBytes_toBytes {idx : IvfPqIndex} (hsized : (core idx).Sized) (hdim : idx.dim ≠ 0)
    (hcoarse : ∀ c ∈ idx.coarseCentroids, c.length = idx.dim)
    (hresidual : idx.config.residual = idx.residual) :
    fromBytes IvfPqSnapshotCore.read (toBytes idx) = pure idx := by
  have hread := hsized.reads [if idx.residual then 1 else 0]
  have hflag : residualFlag [if idx.residual then 1 else 0] = idx.residual := by
    cases idx.residual <;> decide
  have hchunks : chunksExact idx.dim idx.coarseCentroids.flatten = idx.coarseCentroids :=
    chunksExact_flatten hdim hcoarse
  have hmetric : u8ToMetric (core idx).metric = .ok idx.metric := u8ToMetric_metricToU8 idx.metric
  have hdecoded : decoded (core idx) idx.metric idx.residual = idx := by
    obtain ⟨⟨nlist,nprobe,pqM,pqK,maxIter,residual⟩,metric,dim,coarse,pq,rowIds,codes,
      residual'⟩ := idx
    obtain rfl : residual = residual' := hresidual
    simp only [decoded,core] at hchunks ⊢
    rw [hchunks]
  have hdim' : ¬(core idx).dim = 0 := hdim
  unfold fromBytes toBytes
  rw [hread]
  simp only [hmetric,hflag,if_neg hdim']
  change (pure (decoded (core idx) idx.metric idx.residual) : Fallible IvfPqIndex) = pure idx
  rw [hdecoded]

theorem sized_of_built {idx : IvfPqIndex} {rowIds : List UInt64} (h : idx.Built rowIds)
    (hdim : idx.dim ≠ 0) (hsize : rowIds.length * idx.dim < 2 ^ 64)
    (hnlist : idx.config.nlist ≤ rowIds.length) (hnprobe : idx.config.nprobe ≤ idx.config.nlist)
    (hpqK : idx.config.pqK ≤ 256) (hmaxIter : idx.config.maxIter = 0)
    (hcentroids : idx.pq.numCentroids ≤ 256) (hrows : rowIds ≠ []) : (core idx).Sized := by
  have hn : rowIds.length < 2 ^ 64 :=
    (Nat.le_mul_of_pos_right _ (Nat.pos_of_ne_zero hdim)).trans_lt hsize
  have hd : idx.dim < 2 ^ 64 :=
    (Nat.le_mul_of_pos_left _ (length_pos_of_ne_nil hrows)).trans_lt hsize
  have hm : idx.config.pqM ≤ idx.dim :=
    Nat.le_of_dvd (Nat.pos_of_ne_zero hdim) ⟨_,h.pq.subvectors.symm⟩
  have hsub : idx.pq.subDim ≤ idx.dim :=
    Nat.le_of_dvd (Nat.pos_of_ne_zero hdim) ⟨idx.config.pqM, by rw [Nat.mul_comm,h.pq.subvectors]⟩
  have hlist (l : List UInt64) (hl : l ∈ idx.invRowIds) : l.length ≤ rowIds.length := by
    rw [← h.rows.length_eq]
    exact (sublist_flatten_of_mem hl).length_le
  have hcoarse : idx.coarseCentroids.flatten.length < 2 ^ 64 := by
    have hlen : idx.coarseCentroids.flatten.length = idx.coarseCentroids.length * idx.dim := by
      rw [length_flatten,map_congr_left h.dim,map_const',sum_replicate,
        smul_eq_mul]
    rw [hlen]
    exact (Nat.mul_le_mul_right _ (h.le.trans hnlist)).trans_lt hsize
  have hcodes (l : List UInt8) (hl : l ∈ idx.invCodes) : l.length < 2 ^ 64 := by
    obtain ⟨i,hi,rfl⟩ := getElem_of_mem hl
    have hi' : i < idx.invRowIds.length := by rwa [h.coded.length_eq]
    have hcoded : RowsCoded idx.pq idx.config.pqM idx.invRowIds[i] idx.invCodes[i] :=
      (forall₂_iff_get.1 h.coded).2 i hi' hi
    rw [hcoded.length]
    exact (Nat.mul_le_mul (hlist _ (getElem_mem hi')) hm).trans_lt hsize
  have hiter : idx.config.maxIter < 2 ^ 64 := by
    rw [hmaxIter]
    norm_num
  exact {
    nlist := hnlist.trans_lt hn
    nprobe := (hnprobe.trans hnlist).trans_lt hn
    pqM := hm.trans_lt hd
    pqK := hpqK.trans_lt (by norm_num)
    maxIter := hiter
    dim := hd
    coarseFlat := hcoarse
    numSubvectors := h.pq.numSubvectors ▸ hm.trans_lt hd
    numCentroids := hcentroids.trans_lt (by norm_num)
    subDim := hsub.trans_lt hd
    codebook := h.pq.length ▸ hm.trans_lt hd
    centroids := fun cs hcs => ⟨(h.pq.centroids cs hcs).2.trans_lt (by norm_num), fun c hc =>
      h.pq.dim cs hcs c hc ▸ hsub.trans_lt hd⟩
    rowIdLists := h.length ▸ hnlist.trans_lt hn
    rowIds := fun l hl => (hlist l hl).trans_lt hn
    codeLists := h.coded.length_eq ▸ h.length ▸ hnlist.trans_lt hn
    codes := hcodes }

theorem fromBytes_of_dim_eq_zero {idx idx' : IvfPqIndex} (hdim : idx.dim = 0) :
    (fromBytes IvfPqSnapshotCore.read (toBytes idx)).run ≠ some (.ok idx') := by
  unfold fromBytes toBytes
  cases hread : IvfPqSnapshotCore.read ((core idx).toBytes ++ [if idx.residual then 1 else 0]) with
  | none => simp [throw,throwThe,MonadExceptOf.throw,ExceptT.mk,ExceptT.run]
  | some p =>
    have hzero : p.1.dim = 0 := by
      rw [IvfPqSnapshotCore.dim_of_read hread]
      change idx.dim % 2 ^ 64 = 0
      rw [hdim]
      rfl
    cases hmetric : u8ToMetric p.1.metric with
    | error e => simp [hmetric,ExceptT.mk,ExceptT.run,bind,ExceptT.bind,ExceptT.bindCont]
    | ok metric =>
      simp [hmetric,hzero,ExceptT.mk,ExceptT.run,bind,ExceptT.bind,ExceptT.bindCont,
        ExceptT.lift]

end IvfPqSerializer

/-- Training succeeds, and the index keeps the rows before and after it is written and read. -/
def LosesNoRow (ops : FloatOps) (kmeans : KMeans) (rowIds : List UInt64)
    (vectors : List (List F32)) (metric : VectorMetric) (config : IvfPqConfig) : Prop :=
  ∃ idx, (IvfPqIndex.train ops kmeans rowIds vectors metric config).run = some (.ok idx) ∧
    idx.KeepsRows ops rowIds ∧
    ∃ idx', (IvfPqSerializer.fromBytes IvfPqSnapshotCore.read
      (IvfPqSerializer.toBytes idx)).run = some (.ok idx') ∧ idx'.KeepsRows ops rowIds

/-- No row is lost exactly when the vectors have a dimension. The row ids are kept as often as they
are given, so different ones once each. -/
theorem losesNoRow_iff (ops : FloatOps) {kmeans : KMeans} (hkmeans : kmeans.Lawful)
    {rowIds : List UInt64} {vectors : List (List F32)} (hvectors : vectors ≠ []) {dim : Nat}
    (hdim : ∀ v ∈ vectors, v.length = dim) (hlen : rowIds.length = vectors.length)
    (hsize : vectors.flatten.length < 2 ^ 64) (metric : VectorMetric) {config : IvfPqConfig}
    (hnlist : 1 ≤ config.nlist) (hpqK : 1 ≤ config.pqK) :
    LosesNoRow ops kmeans rowIds vectors metric config ↔ dim ≠ 0 := by
  obtain ⟨cb,hcb,hcodebook,hcbDim,hcbLists,hcbProbe,hcbM,hcbK⟩ :=
    IvfPqIndex.trainCodebook_eq ops hvectors hkmeans hdim metric hnlist hpqK
  obtain ⟨idx,hidx,hbuilt,hidxDim,hconfig,hpq⟩ :=
    IvfPqIndex.buildWithCodebook_eq ops hcodebook hvectors (hcbDim.symm ▸ hdim) hlen
  have htrain : IvfPqIndex.train ops kmeans rowIds vectors metric config = pure idx := by
    rw [IvfPqIndex.train,hcb,pure_bind,hidx]
  have hd : idx.dim = dim := hidxDim.trans hcbDim
  constructor
  · rintro ⟨idx',htrain',-,idx'',hread,-⟩ hzero
    rw [htrain] at htrain'
    cases htrain'
    exact IvfPqSerializer.fromBytes_of_dim_eq_zero (hd.trans hzero) hread
  · intro hne
    have hrows : rowIds ≠ [] := by
      rw [← length_pos_iff,hlen]
      exact length_pos_of_ne_nil hvectors
    have hnumbers : rowIds.length * idx.dim < 2 ^ 64 := by
      rw [length_flatten,map_congr_left hdim,map_const',sum_replicate,
        smul_eq_mul] at hsize
      rwa [hlen,hd]
    have hsized := IvfPqSerializer.sized_of_built hbuilt (hd ▸ hne) hnumbers
      (by rw [hconfig,hlen]; exact hcbLists) (by rw [hconfig]; exact hcbProbe)
      (by rw [hconfig]; exact hcbK) (by rw [hconfig]) (hpq ▸ hcbK) hrows
    have hread := IvfPqSerializer.fromBytes_toBytes hsized (hd ▸ hne) hbuilt.dim hbuilt.residual
    exact ⟨idx, congrArg ExceptT.run htrain, hbuilt.keepsRows, idx, congrArg ExceptT.run hread,
      hbuilt.keepsRows⟩

/-! Centroids that are the first of the vectors. -/

def demoKMeans : KMeans := fun vectors k _ => vectors.take k

theorem lawful_demoKMeans : demoKMeans.Lawful where
  pos vectors k _ hne hk := by
    have hpos := length_pos_of_ne_nil hne
    simp only [demoKMeans,length_take]
    omega
  le vectors k _ _ _ := by
    simp only [demoKMeans,length_take]
    omega
  dim vectors k _ d h c hc := h c (mem_of_mem_take hc)

theorem losesNoRow_pair : LosesNoRow IvfPqSerializer.demoOps demoKMeans [7, 3] [[1, 2], [3, 4]]
    .euclidean ⟨5, 5, 2, 3, 1, true⟩ :=
  (losesNoRow_iff _ lawful_demoKMeans (by decide) (by decide) rfl (by decide) _ (by decide)
    (by decide)).2 two_ne_zero

/-- An index over vectors without components is trained and written but not read back. -/
theorem dimless_index_not_read : ¬LosesNoRow IvfPqSerializer.demoOps demoKMeans [7] [[]]
    .euclidean ⟨1, 1, 1, 1, 0, false⟩ := by
  intro ⟨idx,htrain,_,idx',hread,_⟩
  have hdim : ∀ answer ∈ (IvfPqIndex.train IvfPqSerializer.demoOps demoKMeans [7] [[]] .euclidean
      ⟨1,1,1,1,0,false⟩).run, ∀ idx ∈ answer.toOption, idx.dim = 0 := by decide +kernel
  exact IvfPqSerializer.fromBytes_of_dim_eq_zero (hdim _ htrain idx rfl) hread

end AiLake
