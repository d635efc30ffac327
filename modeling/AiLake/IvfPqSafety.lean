import AiLake.IvfPq
import AiLake.VectorWritesSpec

/-! When a decoded index can be searched: the lengths that a search relies on. -/
namespace AiLake

open Bincode Binary Ranking List

namespace FloatOps

variable {ops : FloatOps}

@[simp] theorem length_l2Normalize (v : List F32) : (ops.l2Normalize v).length = v.length := by
  simp only [l2Normalize]
  split <;> simp

@[simp] theorem length_prepared (metric : VectorMetric) (v : List F32) :
    (ops.prepared metric v).length = v.length := by
  unfold prepared
  split <;> simp

theorem length_residual {v centroid : List F32} (h : centroid.length = v.length) :
    (ops.residual v centroid).length = v.length := by
  simp [residual,h]

end FloatOps

namespace PQCodebook

/-- A vector of the dimension can be cut into the sub-vectors, and every one has its centroids. -/
structure Covers (pq : PQCodebook) (dim : Nat) : Prop where
  centroids : pq.numSubvectors ≤ pq.centroids.length
  subvectors : pq.numSubvectors * pq.subDim ≤ dim

/-- Code `c` of sub-vector `m` names a centroid. -/
def Names (pq : PQCodebook) (m : Nat) (c : UInt8) : Prop :=
  m < pq.numSubvectors ∧ ∃ centroids, pq.centroids[m]? = some centroids ∧ c.toNat < centroids.length

variable {ops : FloatOps} {pq : PQCodebook} {query : List F32} {table : List (List F32)}

theorem covers_iff {dim : Nat} : pq.Covers dim ↔
    ∀ m < pq.numSubvectors, m * pq.subDim + pq.subDim ≤ dim ∧ m < pq.centroids.length := by
  constructor
  · intro h m hm
    have hsub : (m + 1) * pq.subDim ≤ pq.numSubvectors * pq.subDim := Nat.mul_le_mul_right _ hm
    rw [Nat.succ_mul] at hsub
    exact ⟨hsub.trans h.subvectors, hm.trans_le h.centroids⟩
  · intro h
    cases hM : pq.numSubvectors with
    | zero => exact ⟨by omega, by rw [hM]; omega⟩
    | succ n =>
      have hlast := h n (by omega)
      refine ⟨by omega, ?_⟩
      rw [hM,Nat.succ_mul]
      exact hlast.1

theorem isSome_computeAdcTable :
    (pq.computeAdcTable ops query).isSome ↔ pq.Covers query.length := by
  rw [computeAdcTable,Checked.isSome_mapM,covers_iff]
  refine forall_congr' fun m => ?_
  rw [mem_range]
  refine imp_congr_right fun _ => ?_
  have hslice : (Checked.slice query (m * pq.subDim) (m * pq.subDim + pq.subDim)).isSome ↔
      m * pq.subDim + pq.subDim ≤ query.length := by
    rw [Checked.isSome_slice,and_iff_right (Nat.le_add_right _ _)]
  rw [← hslice]
  cases Checked.slice query (m * pq.subDim) (m * pq.subDim + pq.subDim) with
  | none => simp
  | some sub => by_cases hm : m < pq.centroids.length <;> simp [hm]

theorem row_iff_names (h : pq.computeAdcTable ops query = some table) (m : Nat) (c : UInt8) :
    ((table[m]?).bind (·[c.toNat]?)).isSome ↔ pq.Names m c := by
  rw [Checked.getElem?_of_mapM h]
  by_cases hm : m < pq.numSubvectors
  · have hcovers : pq.Covers query.length := isSome_computeAdcTable.1 (by rw [h]; rfl)
    obtain ⟨hslice,hcentroids⟩ := covers_iff.1 hcovers m hm
    obtain ⟨sub,hsub⟩ := Option.isSome_iff_exists.1
      (Checked.isSome_slice.2 ⟨Nat.le_add_right (m * pq.subDim) pq.subDim, hslice⟩)
    simp [hsub,Names,hm,getElem?_eq_getElem hcentroids]
  · simp [Names,hm]

theorem isSome_adcDistance (h : pq.computeAdcTable ops query = some table) {codes : List UInt8} :
    (adcDistance ops codes table).isSome ↔ ∀ m c, codes[m]? = some c → pq.Names m c := by
  rw [adcDistance,Option.isSome_map,Checked.isSome_mapM]
  constructor
  · intro hall m c hc
    exact (row_iff_names h m c).1 (hall (c, m) (List.mem_zipIdx_iff_getElem?.2 hc))
  · intro hall p hp
    exact (row_iff_names h p.2 p.1).2 (hall p.2 p.1 (List.mem_zipIdx_iff_getElem?.1 hp))

end PQCodebook

namespace IvfPqIndex

variable (ops : FloatOps) (idx : IvfPqIndex)

/-- The list has its row ids and its codes, and every row has codes that name centroids. -/
def ListFits (list : Nat) : Prop :=
  ∃ rowIds codes, idx.invRowIds[list]? = some rowIds ∧ idx.invCodes[list]? = some codes ∧
    (idx.residual = true → idx.pq.Covers idx.dim) ∧
    ∀ j < rowIds.length, ∀ m < idx.config.pqM,
      ∃ c, codes[j * idx.config.pqM + m]? = some c ∧ idx.pq.Names m c

/-- Some query of the dimension has fewer than `nlist` centroids nearer than this one. -/
def Reached (list : Nat) : Prop :=
  ∃ query cell, query.length = idx.dim ∧ cell ∈ idx.cells ops (ops.prepared idx.metric query) ∧
    cell.1 = list ∧ (idx.cells ops (ops.prepared idx.metric query)).countP
      (fun other => distanceKey Nat other < distanceKey Nat cell) < idx.config.nlist

structure Searchable : Prop where
  table : idx.residual = false → idx.pq.Covers idx.dim
  lists : ∀ list, idx.Reached ops list → idx.ListFits list

/-- Every search with a query of the dimension returns. -/
def SafeToSearch : Prop :=
  ∀ sortCells sortHits query topK nprobe, query.length = idx.dim →
    (idx.search ops sortCells sortHits query topK nprobe).isSome

variable {ops idx}

theorem isSome_scanRow {query : List F32} {table : List (List F32)}
    (h : idx.pq.computeAdcTable ops query = some table) {codes : List UInt8} {row : UInt64 × Nat} :
    (idx.scanRow ops codes table row).isSome ↔ ∀ m < idx.config.pqM,
      ∃ c, codes[row.2 * idx.config.pqM + m]? = some c ∧ idx.pq.Names m c := by
  have hle : row.2 * idx.config.pqM ≤ (row.2 + 1) * idx.config.pqM :=
    Nat.mul_le_mul_right _ (Nat.le_succ _)
  have hwidth : (row.2 + 1) * idx.config.pqM - row.2 * idx.config.pqM = idx.config.pqM := by
    rw [Nat.succ_mul,Nat.add_sub_cancel_left]
  have hscan : (idx.scanRow ops codes table row).isSome ↔ ∃ cs,
      Checked.slice codes (row.2 * idx.config.pqM) ((row.2 + 1) * idx.config.pqM) = some cs ∧
        (PQCodebook.adcDistance ops cs table).isSome := by
    unfold scanRow
    cases Checked.slice codes (row.2 * idx.config.pqM) ((row.2 + 1) * idx.config.pqM) with
    | none => simp
    | some cs => cases hd : PQCodebook.adcDistance ops cs table <;> simp [hd]
  rw [hscan]
  constructor
  · intro ⟨cs,hcs,hdist⟩ m hm
    have hget := Checked.getElem?_of_slice hcs (hwidth.symm ▸ hm)
    have hlt : m < cs.length := by rw [Checked.length_of_slice hcs,hwidth]; exact hm
    exact ⟨cs[m], hget ▸ getElem?_eq_getElem hlt,
      (PQCodebook.isSome_adcDistance h).1 hdist m _ (getElem?_eq_getElem hlt)⟩
  · intro hall
    have hstop : (row.2 + 1) * idx.config.pqM ≤ codes.length := by
      cases hM : idx.config.pqM with
      | zero => omega
      | succ n =>
        -- The last code of the row is there, so the row ends in the list.
        obtain ⟨c,hc,-⟩ := hall n (by omega)
        have := (List.getElem?_eq_some_iff.1 hc).1
        rw [hM] at this
        rw [Nat.succ_mul]
        omega
    obtain ⟨cs,hcs⟩ := Option.isSome_iff_exists.1 (Checked.isSome_slice.2 ⟨hle,hstop⟩)
    refine ⟨cs, hcs, (PQCodebook.isSome_adcDistance h).2 fun m c hc => ?_⟩
    have hm : m < idx.config.pqM := by
      have := (List.getElem?_eq_some_iff.1 hc).1
      rwa [Checked.length_of_slice hcs,hwidth] at this
    obtain ⟨c',hc',hnames⟩ := hall m hm
    rw [Checked.getElem?_of_slice hcs (hwidth.symm ▸ hm),hc'] at hc
    exact Option.some.inj hc ▸ hnames

theorem isSome_scanRows {query : List F32} {table : List (List F32)}
    (h : idx.pq.computeAdcTable ops query = some table) {rowIds : List UInt64} {codes : List UInt8} :
    (rowIds.zipIdx.mapM (idx.scanRow ops codes table)).isSome ↔ ∀ j < rowIds.length,
      ∀ m < idx.config.pqM, ∃ c, codes[j * idx.config.pqM + m]? = some c ∧ idx.pq.Names m c := by
  rw [Checked.isSome_mapM]
  constructor
  · intro hall j hj
    have hmem : (rowIds[j], j) ∈ rowIds.zipIdx :=
      List.mem_zipIdx_iff_getElem?.2 (getElem?_eq_getElem hj)
    exact (isSome_scanRow h).1 (hall _ hmem)
  · intro hall row hrow
    have hget := List.mem_zipIdx_iff_getElem?.1 hrow
    exact (isSome_scanRow h).2 (hall row.2 (List.getElem?_eq_some_iff.1 hget).1)

theorem isSome_scanList {q : List F32} (hq : q.length = idx.dim)
    (hdim : ∀ c ∈ idx.coarseCentroids, c.length = idx.dim) {globalAdc : List (List F32)}
    (hglobal : idx.residual = false → idx.pq.computeAdcTable ops q = some globalAdc) {list : Nat}
    (hlist : list < idx.coarseCentroids.length) :
    (idx.scanList ops q globalAdc list).isSome ↔ idx.ListFits list := by
  unfold scanList ListFits
  cases hids : idx.invRowIds[list]? with
  | none => simp
  | some rowIds =>
    cases hcodes : idx.invCodes[list]? with
    | none => simp
    | some codes =>
      cases hres : idx.residual with
      | false =>
        simp [listAdc,hres,isSome_scanRows (hglobal hres)]
      | true =>
        have hcentroid := hdim _ (getElem_mem hlist)
        have hlen : (ops.residual q idx.coarseCentroids[list]).length = idx.dim := by
          rw [FloatOps.length_residual (hcentroid.trans hq.symm),hq]
        have htable : (idx.pq.computeAdcTable ops
            (ops.residual q idx.coarseCentroids[list])).isSome ↔ idx.pq.Covers idx.dim := by
          rw [PQCodebook.isSome_computeAdcTable,hlen]
        cases hadc : idx.pq.computeAdcTable ops (ops.residual q idx.coarseCentroids[list]) with
        | none =>
          rw [hadc] at htable
          have hnot : ¬idx.pq.Covers idx.dim := fun hc => by simpa using htable.2 hc
          simp [listAdc,hres,getElem?_eq_getElem hlist,hadc,hnot]
        | some table =>
          rw [hadc] at htable
          simp [listAdc,hres,getElem?_eq_getElem hlist,hadc,htable.1 rfl,
            isSome_scanRows hadc]

theorem mem_cells {q : List F32} {cell : Nat × F32} (h : cell ∈ idx.cells ops q) :
    cell.1 < idx.coarseCentroids.length := by
  obtain ⟨p,hp,rfl⟩ := mem_map.1 h
  exact (List.getElem?_eq_some_iff.1 (List.mem_zipIdx_iff_getElem?.1 hp)).1

/-- A search returns exactly when there is a table for it and every list that it scans fits. -/
theorem isSome_search (hdim : ∀ c ∈ idx.coarseCentroids, c.length = idx.dim)
    (sortCells : UnstableSort (distanceKey Nat))
    (sortHits : UnstableSort (distanceKey UInt64)) {query : List F32}
    (hquery : query.length = idx.dim) (topK : Nat) (nprobe : Option Nat) :
    (idx.search ops sortCells sortHits query topK nprobe).isSome ↔
      (idx.residual = false → idx.pq.Covers idx.dim) ∧
        ∀ cell ∈ (sortCells.sort (idx.cells ops (ops.prepared idx.metric query))).take
          (min (nprobe.getD idx.config.nprobe) idx.config.nlist), idx.ListFits cell.1 := by
  have hq : (ops.prepared idx.metric query).length = idx.dim := by simpa using hquery
  have htable : (idx.pq.computeAdcTable ops (ops.prepared idx.metric query)).isSome ↔
      idx.pq.Covers idx.dim := by
    rw [PQCodebook.isSome_computeAdcTable,hq]
  -- What is left to do once the table is there.
  have hscan (globalAdc : List (List F32))
      (hglobal : idx.residual = false →
        idx.pq.computeAdcTable ops (ops.prepared idx.metric query) = some globalAdc) :
      ((((sortCells.sort (idx.cells ops (ops.prepared idx.metric query))).take
        (min (nprobe.getD idx.config.nprobe) idx.config.nlist)).mapM fun cell =>
          idx.scanList ops (ops.prepared idx.metric query) globalAdc cell.1).bind fun candidates =>
            some ((sortHits.sort candidates.flatten).take topK)).isSome ↔
      ∀ cell ∈ (sortCells.sort (idx.cells ops (ops.prepared idx.metric query))).take
        (min (nprobe.getD idx.config.nprobe) idx.config.nlist), idx.ListFits cell.1 := by
    rw [Checked.isSome_bind_some,Checked.isSome_mapM]
    refine forall_congr' fun cell => imp_congr_right fun hcell => ?_
    have hmem := (sortCells.perm _).mem_iff.1 (mem_of_mem_take hcell)
    exact isSome_scanList hq hdim hglobal (mem_cells hmem)
  unfold search
  cases hres : idx.residual with
  | true =>
    have hrest := hscan [] (by simp [hres])
    simpa [globalAdc,hres] using hrest
  | false =>
    cases hadc : idx.pq.computeAdcTable ops (ops.prepared idx.metric query) with
    | none =>
      rw [hadc] at htable
      have hnot : ¬idx.pq.Covers idx.dim := fun hc => by simpa using htable.2 hc
      simp [globalAdc,hres,hnot,hadc]
    | some globalAdc =>
      rw [hadc] at htable
      have hrest := hscan globalAdc fun _ => hadc
      simpa [IvfPqIndex.globalAdc,hres,hadc,htable.1 rfl] using hrest

theorem safeToSearch_iff (hdim : ∀ c ∈ idx.coarseCentroids, c.length = idx.dim) :
    idx.SafeToSearch ops ↔ idx.Searchable ops := by
  constructor
  · intro h
    refine ⟨fun hres => ?_, fun list hreached => ?_⟩
    · have hsome := h .stable .stable (List.replicate idx.dim 0) 0 none (by simp)
      exact ((isSome_search hdim _ _ (by simp) _ _).1 hsome).1 hres
    · obtain ⟨query,cell,hquery,hcell,rfl,hcount⟩ := hreached
      obtain ⟨sortCells,hmem⟩ := UnstableSort.exists_mem_take hcell hcount
      have hsome := h sortCells .stable query 0 (some idx.config.nlist) hquery
      exact ((isSome_search hdim _ _ hquery _ _).1 hsome).2 cell (by simpa using hmem)
  · intro h sortCells sortHits query topK nprobe hquery
    refine (isSome_search hdim _ _ hquery _ _).2 ⟨h.table, fun cell hcell => ?_⟩
    have hmem := (sortCells.perm _).mem_iff.1 (mem_of_mem_take hcell)
    have hcount := sortCells.countP_lt_of_mem_take hcell
    exact h.lists cell.1 ⟨query, cell, hquery, hmem, rfl, hcount.trans_le (min_le_right _ _)⟩

end IvfPqIndex

namespace IvfPqSerializer

theorem length_of_mem_chunksExact {α : Type} {n : Nat} {l c : List α} (h : c ∈ chunksExact n l) :
    c.length = n := by
  obtain ⟨i,hi,rfl⟩ := mem_map.1 h
  have hle : (i + 1) * n ≤ l.length :=
    (Nat.mul_le_mul_right n (mem_range.1 hi)).trans (Nat.div_mul_le_self _ _)
  rw [Nat.succ_mul] at hle
  rw [length_take,length_drop]
  omega

/-- The bytes are rejected, or decoded without a panic into an index that is safe to search. -/
def DecodesSafely (ops : FloatOps) (decode : Reader IvfPqSnapshotCore) (bytes : Bytes) : Prop :=
  ∃ answer, (fromBytes decode bytes).run = some answer ∧
    ∀ idx, answer = .ok idx → idx.SafeToSearch ops

/-- A decoder's answer is safe exactly when the fields that it gives have a dimension and the lengths
that a search relies on. -/
theorem decodesSafely_iff (ops : FloatOps) (decode : Reader IvfPqSnapshotCore) (bytes : Bytes) :
    DecodesSafely ops decode bytes ↔
      ∀ core rest metric, decode bytes = some (core, rest) → u8ToMetric core.metric = .ok metric →
        core.dim ≠ 0 ∧ (decoded core metric (residualFlag rest)).Searchable ops := by
  unfold DecodesSafely fromBytes
  cases hdecode : decode bytes with
  | none => simp [throw,throwThe,MonadExceptOf.throw,ExceptT.mk,ExceptT.run]
  | some p =>
    obtain ⟨core,rest⟩ := p
    have hfields (P : IvfPqSnapshotCore → Bytes → VectorMetric → Prop) :
        (∀ core' rest' metric, some (core, rest) = some (core', rest') →
          u8ToMetric core'.metric = .ok metric → P core' rest' metric) ↔
        ∀ metric, u8ToMetric core.metric = .ok metric → P core rest metric := by
      constructor
      · intro h metric hmetric
        exact h core rest metric rfl hmetric
      · intro h core' rest' metric heq hmetric
        cases heq
        exact h metric hmetric
    rw [hfields fun core rest metric =>
      core.dim ≠ 0 ∧ (decoded core metric (residualFlag rest)).Searchable ops]
    cases hmetric : u8ToMetric core.metric with
    | error e => simp [hmetric,ExceptT.mk,ExceptT.run,bind,ExceptT.bind,ExceptT.bindCont]
    | ok metric =>
      have hsafe : (decoded core metric (residualFlag rest)).SafeToSearch ops ↔
          (decoded core metric (residualFlag rest)).Searchable ops :=
        IvfPqIndex.safeToSearch_iff fun c hc => length_of_mem_chunksExact hc
      by_cases hdim : core.dim = 0
      · simp [hmetric,hdim,ExceptT.mk,ExceptT.run,bind,ExceptT.bind,ExceptT.bindCont,
          ExceptT.lift]
      · simp [hmetric,hdim,hsafe,ExceptT.mk,ExceptT.run,bind,ExceptT.bind,ExceptT.bindCont,
          pure,ExceptT.pure]

/-! Two snapshots that the decoder takes: one without a dimension, and one with a centroid but no
inverted list. -/

def demoOps : FloatOps := ⟨0, (· + ·), (· - ·), (· * ·), fun x _ => x, fun x => x, fun x y => x < y⟩

def demoDimless : IvfPqSnapshotCore := ⟨1, 1, 1, 1, 0, 0, 1, [], ⟨1, 1, 0, [[[]]]⟩, [[7]], [[0]]⟩

def demoUnlisted : IvfPqSnapshotCore := ⟨1, 1, 1, 1, 0, 1, 1, [5], ⟨1, 1, 1, [[[5]]]⟩, [], []⟩

/-- Decoding the first panics, and every search of the second. -/
theorem decoded_snapshots_panic :
    ¬DecodesSafely demoOps IvfPqSnapshotCore.read demoDimless.toBytes ∧
      ¬DecodesSafely demoOps IvfPqSnapshotCore.read demoUnlisted.toBytes := by
  constructor
  · rintro ⟨answer,hanswer,-⟩
    have hpanic : (fromBytes IvfPqSnapshotCore.read demoDimless.toBytes).run = none := by
      decide +kernel
    rw [hpanic] at hanswer
    cases hanswer
  · rintro ⟨answer,hanswer,hsafe⟩
    have hok : (fromBytes IvfPqSnapshotCore.read demoUnlisted.toBytes).run =
        some (.ok (decoded demoUnlisted .euclidean false)) := by
      decide +kernel
    rw [hok] at hanswer
    have hsome := hsafe _ (Option.some.inj hanswer).symm .stable .stable [0] 1 none rfl
    have hnone : (decoded demoUnlisted .euclidean false).search demoOps .stable .stable [0] 1 none =
        none := by
      decide +kernel
    rw [hnone] at hsome
    cases hsome

end IvfPqSerializer
end AiLake
