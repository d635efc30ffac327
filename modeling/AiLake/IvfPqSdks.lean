import AiLake.IvfPqRows

/-! `ivfpq.go` and `ivfpq.hpp`: what the other SDKs read from the bytes of an IVF-PQ index. -/
namespace AiLake

open Bincode Binary List

/-- The index of the Go and the C++ SDK, whose codebook is `[m * k][sub_dim]`. -/
structure SdkIvfPqIndex where
  nlist : Nat
  nprobe : Nat
  pqM : Nat
  pqK : Nat
  maxIter : Nat
  residual : Bool
  metric : UInt8
  dim : Nat
  coarseCentroids : List (List F32)
  m : Nat
  k : Nat
  centroids : List (List F32)
  invRowIds : List (List UInt64)
  invCodes : List (List UInt8)
  deriving DecidableEq, Repr

/- `n, _ := r.readUsize()`: an error leaves zero, and the position where it was. -/
def readOrZero : Reader Nat := fun bs => some ((readUsize bs).getD (0, bs))

/- Absent in older files. -/
def readResidual : Reader Bool := fun bs =>
  match bs with
  | [] => some (false, [])
  | b :: rest => some (b ≠ 0, rest)

/-- Both decoders; they differ in what they do with the counts that cannot be read. -/
def deserializeIvfPq (readCount : Reader Nat) : Reader SdkIvfPqIndex := do
  let nlist ← readUsize
  let nprobe ← readCount
  let pqM ← readCount
  let pqK ← readCount
  let maxIter ← readUsize
  let metric ← readU8
  let dim ← readUsize
  let coarse ← readVec (readVec readF32)
  let m ← readCount
  let k ← readCount
  let centroids ← readVec (readVec readF32)
  let invRowIds ← readVec (readVec readU64)
  let invCodes ← readVec (readVec readU8)
  let residual ← readResidual
  pure ⟨nlist, nprobe, pqM, pqK, maxIter, residual, metric, dim, coarse, m, k, centroids, invRowIds,
    invCodes⟩

def deserializeIvfPqGo : Reader SdkIvfPqIndex := deserializeIvfPq readOrZero

def deserializeIvfPqCpp : Reader SdkIvfPqIndex := deserializeIvfPq readUsize

def IvfPqIndex.sdk (idx : IvfPqIndex) : SdkIvfPqIndex :=
  ⟨idx.config.nlist, idx.config.nprobe, idx.config.pqM, idx.config.pqK, idx.config.maxIter,
    idx.residual, IvfPqSerializer.metricToU8 idx.metric, idx.dim, idx.coarseCentroids,
    idx.pq.numSubvectors, idx.pq.numCentroids, idx.pq.centroids.flatten, idx.invRowIds, idx.invCodes⟩

def SdksAgree (idx : IvfPqIndex) : Prop :=
  ∀ decode ∈ [deserializeIvfPqGo, deserializeIvfPqCpp],
    ∃ rest, decode (IvfPqSerializer.toBytes idx) = some (idx.sdk, rest)

structure IvfPqIndex.Shaped (idx : IvfPqIndex) : Prop where
  coarse : ∀ c ∈ idx.coarseCentroids, c.length = idx.dim
  subvectors : idx.config.pqM * idx.pq.subDim = idx.dim
  numSubvectors : idx.pq.numSubvectors = idx.config.pqM
  codebook : idx.pq.centroids.length = idx.config.pqM
  centroids : ∀ cs ∈ idx.pq.centroids, ∀ c ∈ cs, c.length = idx.pq.subDim
  rowIds : idx.invRowIds.length = idx.config.nlist
  codes : List.Forall₂ (fun ids cs => cs.length = ids.length * idx.config.pqM) idx.invRowIds
    idx.invCodes

/-- Nothing is stored in the index, and it has as many empty lists as sub-vectors without a
component. -/
structure IvfPqIndex.Blank (idx : IvfPqIndex) : Prop where
  metric : idx.metric = .cosine
  dim : idx.dim = 0
  coarse : idx.coarseCentroids = []
  subDim : idx.pq.subDim = 0
  centroids : ∀ cs ∈ idx.pq.centroids, cs = []
  lists : idx.config.nlist = idx.config.pqM
  rowIds : ∀ ids ∈ idx.invRowIds, ids = []
  residual : idx.residual = decide (idx.config.nlist % 256 ≠ 0)

/-! The dimension and the metric are read in the other order. -/

theorem reads_readOrZero {n : Nat} (h : n < 2 ^ 64) : Reads readOrZero (usize n) n := by
  intro rest
  rw [readOrZero,reads_readUsize h rest,Option.getD_some]

theorem dim_metric_bytes (dim : Nat) (metric : UInt8) (rest : Bytes) :
    usize dim ++ ([metric] ++ rest) =
      [UInt8.ofNat dim] ++ (usize (dim / 256 % 2 ^ 56 + 2 ^ 56 * metric.toNat) ++ rest) := by
  have hmetric : [metric] = le 1 metric.toNat := by simp [le]
  have happend : le 7 (dim / 256) ++ le 1 metric.toNat =
      usize (dim / 256 % 2 ^ 56 + 2 ^ 56 * metric.toNat) := le_append 7 1 _ _
  have hdim : usize dim = [UInt8.ofNat dim] ++ le 7 (dim / 256) := rfl
  rw [hdim,hmetric,← happend,append_assoc,append_assoc]

theorem not_square (s : Nat) : s * s ≠ 72340172838076673 ∧ s * s ≠ 144680345676153346 ∧
    s * s ≠ 217020518514230019 := by
  have hroot (a : Nat) : s * s ≤ a * a ∨ (a + 1) * (a + 1) ≤ s * s := by
    cases Nat.lt_or_ge a s with
    | inl h => exact .inr (Nat.mul_self_le_mul_self h)
    | inr h => exact .inl (Nat.mul_self_le_mul_self h)
  refine ⟨?_,?_,?_⟩
  · have := hroot 268961285
    omega
  · have := hroot 380368697
    omega
  · have := hroot 465854610
    omega

/-- A dimension that is read back is zero, with the metric 0, or none that a codebook with as many
sub-vectors as components in each has. -/
theorem dim_of_swapped {dim : Nat} {metric : VectorMetric} (hdim : dim < 2 ^ 64)
    (hmetric : UInt8.ofNat dim = IvfPqSerializer.metricToU8 metric)
    (hswapped : dim / 256 % 2 ^ 56 + 2 ^ 56 * (IvfPqSerializer.metricToU8 metric).toNat = dim) :
    (dim = 0 ∧ metric = .cosine) ∨ (1 < dim ∧ ∀ s, s * s ≠ dim) := by
  have hbyte : dim % 256 = (IvfPqSerializer.metricToU8 metric).toNat := by
    rw [← hmetric,UInt8.toNat_ofNat']
  cases metric with
  | cosine =>
    have hzero : (IvfPqSerializer.metricToU8 .cosine).toNat = 0 := rfl
    refine .inl ⟨?_,rfl⟩
    omega
  | euclidean =>
    have hone : (IvfPqSerializer.metricToU8 .euclidean).toNat = 1 := rfl
    obtain rfl : dim = 72340172838076673 := by omega
    exact .inr ⟨by omega, fun s => (not_square s).1⟩
  | dotProduct =>
    have htwo : (IvfPqSerializer.metricToU8 .dotProduct).toNat = 2 := rfl
    obtain rfl : dim = 144680345676153346 := by omega
    exact .inr ⟨by omega, fun s => (not_square s).2.1⟩
  | normalizedCosine =>
    have hthree : (IvfPqSerializer.metricToU8 .normalizedCosine).toNat = 3 := rfl
    obtain rfl : dim = 217020518514230019 := by omega
    exact .inr ⟨by omega, fun s => (not_square s).2.2⟩

/-! What is left of the bytes after the codebook's counts. -/

section Codebook

variable {idx : IvfPqIndex}

theorem flatMap_vec_nil {α β : Type} {w : α → Bytes} {v : β → Bytes} {n : Nat} :
    (List.replicate n []).flatMap (vec w) = (List.replicate n []).flatMap (vec v) := by
  simp [flatMap_replicate,vec]

theorem reads_blanks {α : Type} (r : Reader α) (n : Nat) {β : Type} (w : β → Bytes) :
    Reads (readMany (readVec r) n) ((List.replicate n []).flatMap (vec w)) (List.replicate n []) := by
  have hread : Reads (readMany (readVec r) (List.replicate n ([] : List α)).length)
      ((List.replicate n []).flatMap (vec fun _ : α => [])) (List.replicate n []) := by
    refine reads_readMany fun x hx => ?_
    rw [eq_of_mem_replicate hx]
    exact reads_readVec (by norm_num) (by simp)
  rw [length_replicate,flatMap_vec_nil (v := w)] at hread
  exact hread

theorem codebook_bytes (hshape : idx.Shaped) (hcentroids : ∀ cs ∈ idx.pq.centroids, cs = [])
    (hlists : idx.config.nlist = idx.config.pqM) (hrowIds : ∀ ids ∈ idx.invRowIds, ids = []) :
    vec (vec (vec f32)) idx.pq.centroids = vec (vec u64) idx.invRowIds ∧
      idx.invRowIds = List.replicate idx.config.nlist [] ∧
      idx.invCodes = List.replicate idx.config.nlist [] := by
  have hcs : idx.pq.centroids = List.replicate idx.config.nlist [] :=
    eq_replicate_iff.2 ⟨by rw [hshape.codebook,hlists], hcentroids⟩
  have hids : idx.invRowIds = List.replicate idx.config.nlist [] :=
    eq_replicate_iff.2 ⟨hshape.rowIds,hrowIds⟩
  have hcodes : idx.invCodes = List.replicate idx.config.nlist [] := by
    refine eq_replicate_iff.2 ⟨by rw [← hshape.codes.length_eq,hshape.rowIds], fun cs hcs => ?_⟩
    obtain ⟨i,hi,rfl⟩ := getElem_of_mem hcs
    have hi' : i < idx.invRowIds.length := by rwa [hshape.codes.length_eq]
    have hlen : idx.invCodes[i].length = idx.invRowIds[i].length * idx.config.pqM :=
      (forall₂_iff_get.1 hshape.codes).2 i hi' hi
    rw [hrowIds _ (getElem_mem hi'),length_nil,Nat.zero_mul] at hlen
    exact length_eq_zero_iff.1 hlen
  refine ⟨?_,hids,hcodes⟩
  rw [hcs,hids,vec,vec,flatMap_vec_nil (v := u64),length_replicate,length_replicate]

end Codebook

section Agreement

variable {idx : IvfPqIndex} {readCount : Reader Nat}

open IvfPqSerializer

/-- The decoder from the metric on, with the counts that it read before. -/
def deserializeFrom (readCount : Reader Nat) (nlist nprobe pqM pqK maxIter : Nat) :
    Reader SdkIvfPqIndex := do
  let metric ← readU8
  let dim ← readUsize
  let coarse ← readVec (readVec readF32)
  let m ← readCount
  let k ← readCount
  let centroids ← readVec (readVec readF32)
  let invRowIds ← readVec (readVec readU64)
  let invCodes ← readVec (readVec readU8)
  let residual ← readResidual
  pure ⟨nlist, nprobe, pqM, pqK, maxIter, residual, metric, dim, coarse, m, k, centroids, invRowIds,
    invCodes⟩

def coarseBytes (idx : IvfPqIndex) : Bytes :=
  vec f32 idx.coarseCentroids.flatten ++ (usize idx.pq.numSubvectors ++ (usize idx.pq.numCentroids ++
    (usize idx.pq.subDim ++ (vec (vec (vec f32)) idx.pq.centroids ++ (vec (vec u64) idx.invRowIds ++
      (vec (vec fun b => [b]) idx.invCodes ++ [if idx.residual then 1 else 0]))))))

theorem deserializeIvfPq_toBytes (hcount : ∀ n < 2 ^ 64, Reads readCount (usize n) n)
    (hs : (core idx).Sized) :
    deserializeIvfPq readCount (toBytes idx) =
      deserializeFrom readCount idx.config.nlist idx.config.nprobe idx.config.pqM idx.config.pqK
        idx.config.maxIter ([UInt8.ofNat idx.dim] ++ (usize (idx.dim / 256 % 2 ^ 56 +
          2 ^ 56 * (metricToU8 idx.metric).toNat) ++ coarseBytes idx)) := by
  unfold deserializeIvfPq toBytes IvfPqSnapshotCore.toBytes PQCodebook.toBytes
  simp only [append_assoc]
  rw [(reads_readUsize hs.nlist).bind_apply,(hcount _ hs.nprobe).bind_apply,
    (hcount _ hs.pqM).bind_apply,(hcount _ hs.pqK).bind_apply,(reads_readUsize hs.maxIter).bind_apply,
    dim_metric_bytes]
  rfl

theorem swapped_lt (idx : IvfPqIndex) :
    idx.dim / 256 % 2 ^ 56 + 2 ^ 56 * (metricToU8 idx.metric).toNat < 2 ^ 64 := by
  have hmetric : (metricToU8 idx.metric).toNat ≤ 3 := by cases idx.metric <;> decide
  omega

theorem coarse_eq_nil (hshape : idx.Shaped) (hdim : idx.dim ≠ 1)
    (h : idx.coarseCentroids.length = idx.coarseCentroids.flatten.length) :
    idx.coarseCentroids = [] := by
  rw [length_flatten,map_congr_left hshape.coarse,map_const',sum_replicate,
    smul_eq_mul] at h
  by_contra hne
  have hpos := length_pos_of_ne_nil hne
  exact hdim (Nat.eq_of_mul_eq_mul_left hpos (by omega))

theorem subDim_of_centroids (hshape : idx.Shaped) (hs : (core idx).Sized) {more rest : Bytes}
    (h : readMany (readVec readF32) idx.pq.subDim (vec (vec (vec f32)) idx.pq.centroids ++ more) =
      some (idx.pq.centroids.flatten, rest)) :
    idx.pq.subDim = 0 ∨ idx.dim = idx.pq.subDim * idx.pq.subDim := by
  cases hsub : idx.pq.subDim with
  | zero => exact .inl rfl
  | succ n =>
    rw [hsub,readMany] at h
    obtain ⟨c,mid,hc,h⟩ := bind_eq_some.1 h
    obtain ⟨cs,mid',-,h⟩ := bind_eq_some.1 h
    have hflatten := (pure_eq_some.1 h).1
    have hvec : vec (vec (vec f32)) idx.pq.centroids =
        usize idx.pq.centroids.length ++ idx.pq.centroids.flatMap (vec (vec f32)) := rfl
    rw [hvec,append_assoc] at hc
    have hlen : c.length = idx.pq.centroids.length := (readVec_usize hs.codebook hc).1
    have hmem : c ∈ idx.pq.centroids.flatten := by
      rw [← hflatten]
      exact mem_cons_self
    obtain ⟨l,hl,hcl⟩ := mem_flatten.1 hmem
    have hsame : idx.config.pqM = n + 1 := by
      rw [← hshape.codebook,← hlen,hshape.centroids l hl c hcl,hsub]
    right
    rw [← hshape.subvectors,hsub,hsame]

theorem blank_of_deserialize (hcount : ∀ n < 2 ^ 64, Reads readCount (usize n) n)
    (hs : (core idx).Sized) (hshape : idx.Shaped) {rest : Bytes}
    (h : deserializeIvfPq readCount (toBytes idx) = some (idx.sdk, rest)) : idx.Blank := by
  rw [deserializeIvfPq_toBytes hcount hs,deserializeFrom,(reads_readU8 _).bind_apply,
    (reads_readUsize (swapped_lt idx)).bind_apply] at h
  obtain ⟨coarse,r₁,hcoarse,h⟩ := bind_eq_some.1 h
  obtain ⟨m,r₂,hm,h⟩ := bind_eq_some.1 h
  obtain ⟨k,r₃,hk,h⟩ := bind_eq_some.1 h
  obtain ⟨centroids,r₄,hcentroids,h⟩ := bind_eq_some.1 h
  obtain ⟨rowIds,r₅,hrowIds,h⟩ := bind_eq_some.1 h
  obtain ⟨codes,r₆,hcodes,h⟩ := bind_eq_some.1 h
  obtain ⟨residual,r₇,hresidual,h⟩ := bind_eq_some.1 h
  have hsdk := (pure_eq_some.1 h).1
  simp only [IvfPqIndex.sdk,SdkIvfPqIndex.mk.injEq,true_and] at hsdk
  obtain ⟨rfl,hmetric,hdim,rfl,rfl,rfl,rfl,rfl,rfl⟩ := hsdk
  have hcase : (idx.dim = 0 ∧ idx.metric = .cosine) ∨ (1 < idx.dim ∧ ∀ s, s * s ≠ idx.dim) :=
    dim_of_swapped hs.dim hmetric hdim
  -- The coarse centroids are taken off whole only when there are none.
  have hflat : vec f32 idx.coarseCentroids.flatten =
      usize idx.coarseCentroids.flatten.length ++ idx.coarseCentroids.flatten.flatMap f32 := rfl
  rw [coarseBytes,hflat,append_assoc] at hcoarse
  have hflatLen : idx.coarseCentroids.flatten.length < 2 ^ 64 := hs.coarseFlat
  obtain ⟨hlen,hmany⟩ := readVec_usize hflatLen hcoarse
  have hnil : idx.coarseCentroids = [] := coarse_eq_nil hshape (by omega) hlen
  rw [hnil] at hmany
  obtain rfl := (pure_eq_some.1 hmany).2
  rw [flatten_nil,flatMap_nil,nil_append,
    hcount idx.pq.numSubvectors hs.numSubvectors] at hm
  obtain ⟨-,rfl⟩ := Prod.mk.inj (Option.some.inj hm)
  rw [hcount idx.pq.numCentroids hs.numCentroids] at hk
  obtain ⟨-,rfl⟩ := Prod.mk.inj (Option.some.inj hk)
  obtain ⟨hcount',hcentroids⟩ := readVec_usize (n := idx.pq.subDim) hs.subDim hcentroids
  have hsub : idx.pq.subDim = 0 := by
    cases subDim_of_centroids hshape hs hcentroids with
    | inl hzero => exact hzero
    | inr hsquare =>
      cases hcase with
      | inl hzero =>
        rw [hzero.1] at hsquare
        exact mul_self_eq_zero.1 hsquare.symm
      | inr hbig => exact absurd hsquare.symm (hbig.2 _)
  have hzero : idx.dim = 0 := by rw [← hshape.subvectors,hsub,Nat.mul_zero]
  have hblank : ∀ cs ∈ idx.pq.centroids, cs = [] := by
    rw [hsub] at hcount'
    exact flatten_eq_nil_iff.1 (length_eq_zero_iff.1 hcount')
  -- The codebook is read as the lists of row ids.
  rw [hsub] at hcentroids
  obtain rfl := (pure_eq_some.1 hcentroids).2
  have hbytes : vec (vec (vec f32)) idx.pq.centroids = usize idx.config.pqM ++
      (List.replicate idx.config.pqM []).flatMap (vec (vec f32)) := by
    have hcs : idx.pq.centroids = List.replicate idx.config.pqM [] :=
      eq_replicate_iff.2 ⟨hshape.codebook,hblank⟩
    rw [hcs,vec,length_replicate]
  rw [hbytes,append_assoc] at hrowIds
  obtain ⟨hlists,hrowIds⟩ := readVec_usize (n := idx.config.pqM) hs.pqM hrowIds
  rw [reads_blanks readU64 _ (vec f32)] at hrowIds
  obtain ⟨hids,rfl⟩ := Prod.mk.inj (Option.some.inj hrowIds)
  have hlists' : idx.config.nlist = idx.config.pqM := by rw [← hshape.rowIds,hlists]
  have hempty : ∀ ids ∈ idx.invRowIds, ids = [] := by
    rw [← hids]
    exact fun ids hmem => eq_of_mem_replicate hmem
  -- The lists of row ids are read as codes, and the number of code lists as the residual flag.
  obtain ⟨-,hidsEq,hcodesEq⟩ := codebook_bytes hshape hblank hlists' hempty
  have hcodesRead : Reads (readVec (readVec readU8)) (vec (vec u64) idx.invRowIds) idx.invCodes := by
    have hvec : vec (vec u64) idx.invRowIds = usize idx.config.nlist ++
        (List.replicate idx.config.nlist []).flatMap (vec u64) := by
      rw [hidsEq,vec,length_replicate]
    rw [hvec,hcodesEq]
    exact (reads_readUsize (n := idx.config.nlist) hs.nlist).bind (reads_blanks readU8 _ u64)
  rw [hcodesRead] at hcodes
  obtain ⟨-,rfl⟩ := Prod.mk.inj (Option.some.inj hcodes)
  refine ⟨?_,hzero,hnil,hsub,hblank,hlists',hempty,?_⟩
  · cases hcase with
    | inl h => exact h.2
    | inr h => omega
  · have hfirst : vec (vec fun b => [b]) idx.invCodes ++ [if idx.residual then 1 else 0] =
        UInt8.ofNat idx.config.nlist :: (le 7 (idx.config.nlist / 256) ++
          idx.invCodes.flatMap (vec fun b => [b]) ++ [if idx.residual then 1 else 0]) := by
      have hcodeLen : idx.invCodes.length = idx.config.nlist := by
        rw [hcodesEq,length_replicate]
      rw [vec,hcodeLen]
      rfl
    rw [hfirst] at hresidual
    have hflag := (Prod.mk.inj (Option.some.inj hresidual)).1
    rw [← hflag,decide_eq_decide,ne_eq,ne_eq,not_iff_not,← UInt8.toNat_inj,UInt8.toNat_ofNat']
    rfl

theorem vec_codes (hcodes : idx.invCodes.length = idx.config.nlist) :
    vec (vec fun b => [b]) idx.invCodes = UInt8.ofNat idx.config.nlist ::
      (le 7 (idx.config.nlist / 256) ++ idx.invCodes.flatMap (vec fun b => [b])) := by
  rw [vec,hcodes,usize,le,cons_append]

theorem coarseBytes_of_blank (h : idx.Blank)
    (hbytes : vec (vec (vec f32)) idx.pq.centroids = vec (vec u64) idx.invRowIds)
    (hcodes : idx.invCodes.length = idx.config.nlist) :
    coarseBytes idx = usize 0 ++ (usize idx.pq.numSubvectors ++ (usize idx.pq.numCentroids ++
      (usize 0 ++ (vec (vec u64) idx.invRowIds ++ (vec (vec u64) idx.invRowIds ++
        (UInt8.ofNat idx.config.nlist :: (le 7 (idx.config.nlist / 256) ++
          (idx.invCodes.flatMap (vec fun b => [b]) ++ [if idx.residual then 1 else 0])))))))) := by
  have hnil : vec f32 ([] : List (List F32)).flatten = usize 0 := by
    rw [flatten_nil,vec,flatMap_nil,append_nil,length_nil]
  rw [coarseBytes,h.coarse,hnil,h.subDim,hbytes,vec_codes hcodes,cons_append,
    append_assoc (le 7 (idx.config.nlist / 256))]

theorem sdk_of_blank (h : idx.Blank) (hids : idx.invRowIds = List.replicate idx.config.nlist [])
    (hcodes : idx.invCodes = List.replicate idx.config.nlist []) :
    idx.sdk = ⟨idx.config.nlist, idx.config.nprobe, idx.config.pqM, idx.config.pqK,
      idx.config.maxIter, decide (UInt8.ofNat idx.config.nlist ≠ 0), UInt8.ofNat idx.dim, 0, [],
      idx.pq.numSubvectors, idx.pq.numCentroids, [], List.replicate idx.config.nlist [],
      List.replicate idx.config.nlist []⟩ := by
  have hcentroids : idx.pq.centroids.flatten = [] := flatten_eq_nil_iff.2 h.centroids
  have hmetric : metricToU8 idx.metric = UInt8.ofNat idx.dim := by
    rw [h.metric,h.dim]
    rfl
  have hresidual : idx.residual = decide (UInt8.ofNat idx.config.nlist ≠ 0) := by
    rw [h.residual,decide_eq_decide,ne_eq,ne_eq,not_iff_not,← UInt8.toNat_inj,
      UInt8.toNat_ofNat']
    rfl
  rw [IvfPqIndex.sdk,hmetric,hcentroids,hids,hcodes,h.coarse,hresidual,h.dim]

theorem deserialize_of_blank (hcount : ∀ n < 2 ^ 64, Reads readCount (usize n) n)
    (hs : (core idx).Sized) (hshape : idx.Shaped) (h : idx.Blank) :
    ∃ rest, deserializeIvfPq readCount (toBytes idx) = some (idx.sdk, rest) := by
  obtain ⟨hbytes,hids,hcodes⟩ := codebook_bytes hshape h.centroids h.lists h.rowIds
  have hswapped : idx.dim / 256 % 2 ^ 56 + 2 ^ 56 * (metricToU8 idx.metric).toNat = 0 := by
    have hmetric : (metricToU8 .cosine).toNat = 0 := rfl
    rw [h.dim,h.metric,hmetric]
    norm_num
  have hblanks {α β : Type} (r : Reader α) (w : β → Bytes) : Reads (readVec (readVec r))
      (vec (vec w) (List.replicate idx.config.nlist [])) (List.replicate idx.config.nlist []) := by
    rw [vec,length_replicate]
    exact (reads_readUsize (n := idx.config.nlist) hs.nlist).bind (reads_blanks r _ w)
  have hnone {α : Type} (r : Reader α) : Reads (readVec r) (usize 0) [] := by
    have hread : Reads (readVec r) (vec (fun _ => []) []) [] := reads_readVec (by norm_num) (by simp)
    rwa [vec,flatMap_nil,append_nil] at hread
  refine ⟨le 7 (idx.config.nlist / 256) ++ (idx.invCodes.flatMap (vec fun b => [b]) ++
    [if idx.residual then 1 else 0]), ?_⟩
  rw [deserializeIvfPq_toBytes hcount hs,hswapped,
    coarseBytes_of_blank h hbytes (by rw [hcodes,length_replicate]),deserializeFrom,
    (reads_readU8 _).bind_apply,(reads_readUsize (n := 0) (by norm_num)).bind_apply,
    (hnone (readVec readF32)).bind_apply,(hcount idx.pq.numSubvectors hs.numSubvectors).bind_apply,
    (hcount idx.pq.numCentroids hs.numCentroids).bind_apply,(hnone (readVec readF32)).bind_apply,
    hids,(hblanks readU64 u64).bind_apply,(hblanks readU8 u64).bind_apply,
    sdk_of_blank h hids hcodes]
  exact bind_eq_some.2 ⟨_,_,rfl,rfl⟩

end Agreement

/-- The SDKs read back an index exactly when it is blank. -/
theorem sdksAgree_iff {idx : IvfPqIndex} (hs : (IvfPqSerializer.core idx).Sized)
    (hshape : idx.Shaped) : SdksAgree idx ↔ idx.Blank := by
  constructor
  · intro h
    obtain ⟨rest,hrest⟩ := h deserializeIvfPqCpp (by simp)
    exact blank_of_deserialize (fun n hn => reads_readUsize hn) hs hshape hrest
  · intro h decode hdecode
    rcases mem_pair.1 hdecode with rfl | rfl
    · exact deserialize_of_blank (fun n hn => reads_readOrZero hn) hs hshape h
    · exact deserialize_of_blank (fun n hn => reads_readUsize hn) hs hshape h

/-! An index with nothing in it, and one with a row. -/

def demoBlank : IvfPqIndex :=
  ⟨⟨0, 0, 0, 0, 0, false⟩, .cosine, 0, [], ⟨0, 0, 0, []⟩, [], [], false⟩

def demoIvfPq : IvfPqIndex :=
  ⟨⟨1, 1, 1, 1, 0, false⟩, .euclidean, 2, [[1, 2]], ⟨1, 1, 2, [[[1, 2]]]⟩, [[7]], [[0]], false⟩

theorem sdksAgree_demoBlank : SdksAgree demoBlank := by
  refine (sdksAgree_iff ?_ ?_).2 ?_
  · constructor <;> decide
  · exact ⟨by decide, by decide, by decide, by decide, by decide, by decide, .nil⟩
  · constructor <;> decide

theorem sdks_misread_row : ¬SdksAgree demoIvfPq := by
  intro h
  obtain ⟨rest,hrest⟩ := h deserializeIvfPqCpp (by simp)
  have hs : (IvfPqSerializer.core demoIvfPq).Sized := by constructor <;> decide
  have hshape : demoIvfPq.Shaped :=
    ⟨by decide, by decide, by decide, by decide, by decide, by decide, .cons rfl .nil⟩
  have hblank := blank_of_deserialize (fun n hn => reads_readUsize hn) hs hshape hrest
  exact absurd hblank.dim (by decide)

end AiLake
