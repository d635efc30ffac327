import AiLake.Binary.Bincode
import AiLake.Checked
import AiLake.Search
import AiLake.VectorWrites

/-! `pq.rs` and `ivf_pq.rs`: product quantisation and the inverted-file index, with its serialiser.
`none` is a panic. -/
namespace AiLake

open Binary Bincode Ranking

inductive IndexError where
  | catalog (message : String)
  | bincode
  deriving DecidableEq, Repr

abbrev Fallible (α : Type) := ExceptT IndexError Option α

theorem Fallible.lift_some {α : Type} (a : α) : ExceptT.lift (some a) = (pure a : Fallible α) := rfl

/-- The arithmetic of `f32`; `zero` is what sums start from. -/
structure FloatOps where
  zero : F32
  add : F32 → F32 → F32
  sub : F32 → F32 → F32
  mul : F32 → F32 → F32
  div : F32 → F32 → F32
  sqrt : F32 → F32
  lt : F32 → F32 → Bool

namespace FloatOps

variable (ops : FloatOps)

def sum (xs : List F32) : F32 := xs.foldl ops.add ops.zero

def l2Sq (a b : List F32) : F32 :=
  ops.sum (List.zipWith (fun x y => ops.mul (ops.sub x y) (ops.sub x y)) a b)

/- Vectors shorter than `1e-9` stay as they are. -/
def l2Normalize (v : List F32) : List F32 :=
  let norm := ops.sqrt (ops.sum (v.map fun x => ops.mul x x))
  if ops.lt norm 0x3089705F#32 then v else v.map fun x => ops.div x norm

def residual (v centroid : List F32) : List F32 := List.zipWith ops.sub v centroid

/- `min_by` returns the first of the nearest. -/
def nearestIdx (v : List F32) (centroids : List (List F32)) : Nat :=
  ((sorted (fun p => (ops.l2Sq v p.1).totalOrder) centroids.zipIdx).head?.map (·.2)).getD 0

/- Vectors and queries are normalised for the cosine metric only. -/
def prepared (metric : VectorMetric) (v : List F32) : List F32 :=
  if metric = .cosine then ops.l2Normalize v else v

end FloatOps

/-- Vectors, a number of centroids and a number of iterations. -/
abbrev KMeans := List (List F32) → Nat → Nat → List (List F32)

/-! `pq.rs`. -/

structure PQCodebook where
  numSubvectors : Nat
  numCentroids : Nat
  subDim : Nat
  centroids : List (List (List F32))
  deriving DecidableEq, Repr

namespace PQCodebook

def trainCentroids (kmeans : KMeans) (vectors : List (List F32))
    (numSubvectors numCentroids subDim maxIter : Nat) : Option (List (List (List F32))) :=
  (List.range numSubvectors).mapM fun m => do
    let subVecs ← vectors.mapM fun v => Checked.slice v (m * subDim) (m * subDim + subDim)
    pure (kmeans subVecs (min numCentroids vectors.length) maxIter)

def trainWithKmeans (kmeans : KMeans) (vectors : List (List F32))
    (numSubvectors numCentroids maxIter : Nat) : Fallible PQCodebook :=
  match vectors with
  | [] => throw (.catalog "PQ training requires at least 1 vector")
  | first :: _ =>
    let dim := first.length
    if dim % numSubvectors ≠ 0 then
      throw (.catalog ("dim " ++ toString dim ++ " not divisible by num_subvectors " ++
        toString numSubvectors))
    else if numSubvectors = 0 then
      -- a division by zero
      ExceptT.lift none
    else do
      let subDim := dim / numSubvectors
      let centroids ← ExceptT.lift
        (trainCentroids kmeans vectors numSubvectors numCentroids subDim maxIter)
      pure ⟨numSubvectors, numCentroids, subDim, centroids⟩

variable (ops : FloatOps) (pq : PQCodebook)

def encode (vector : List F32) : Option (List UInt8) :=
  (List.range pq.numSubvectors).mapM fun m => do
    let sub ← Checked.slice vector (m * pq.subDim) (m * pq.subDim + pq.subDim)
    let centroids ← pq.centroids[m]?
    pure (UInt8.ofNat (ops.nearestIdx sub centroids))

def computeAdcTable (query : List F32) : Option (List (List F32)) :=
  (List.range pq.numSubvectors).mapM fun m => do
    let sub ← Checked.slice query (m * pq.subDim) (m * pq.subDim + pq.subDim)
    let centroids ← pq.centroids[m]?
    pure (centroids.map (ops.l2Sq sub))

def adcDistance (codes : List UInt8) (table : List (List F32)) : Option F32 :=
  (codes.zipIdx.mapM fun p => (table[p.2]?).bind (·[p.1.toNat]?)).map ops.sum

end PQCodebook

/-! `ivf_pq.rs`. -/

structure IvfPqIndex where
  config : IvfPqConfig
  metric : VectorMetric
  dim : Nat
  coarseCentroids : List (List F32)
  pq : PQCodebook
  invRowIds : List (List UInt64)
  invCodes : List (List UInt8)
  residual : Bool
  deriving DecidableEq, Repr

structure IvfPqCodebook where
  coarseCentroids : List (List F32)
  pq : PQCodebook
  nlist : Nat
  nprobe : Nat
  pqM : Nat
  dim : Nat
  metric : VectorMetric
  residual : Bool
  deriving DecidableEq, Repr

/-- The largest divisor of the dimension that is at most the number asked for. -/
def findValidPqM : Nat → Nat → Nat
  | 0, _ => 1
  | m + 1, dim => if dim % (m + 1) = 0 then m + 1 else findValidPqM m dim

/- The messages of `AilakeError` as `PQ training failed` quotes them. -/
def pqTrainingFailed : IndexError → IndexError
  | .catalog message => .catalog ("PQ training failed: catalog error: " ++ message)
  | .bincode => .bincode

namespace IvfPqIndex

variable (ops : FloatOps)

def pqInput (residual : Bool) (coarse vecs : List (List F32)) : Option (List (List F32)) :=
  if residual then
    vecs.mapM fun v => (coarse[ops.nearestIdx v coarse]?).map (ops.residual v)
  else some vecs

def trainCodebook (kmeans : KMeans) (vectors : List (List F32)) (metric : VectorMetric)
    (config : IvfPqConfig) : Fallible IvfPqCodebook :=
  match vectors with
  | [] => throw (.catalog "IVF-PQ training requires at least 1 vector")
  | first :: _ => do
    let dim := first.length
    let vecs := vectors.map (ops.prepared metric)
    let nlist := min config.nlist vectors.length
    let pqM := findValidPqM config.pqM dim
    let coarse := kmeans vecs nlist config.maxIter
    let input ← ExceptT.lift (pqInput ops config.residual coarse vecs)
    let pq ← (PQCodebook.trainWithKmeans kmeans input pqM (min config.pqK 256)
      config.maxIter).adapt pqTrainingFailed
    pure ⟨coarse, pq, nlist, min config.nprobe nlist, pqM, dim, metric, config.residual⟩

structure InvertedLists where
  rowIds : List (List UInt64)
  codes : List (List UInt8)
  deriving DecidableEq, Repr

def encodeRow (codebook : IvfPqCodebook) (v : List F32) (list : Nat) : Option (List UInt8) :=
  if codebook.residual then do
    let centroid ← codebook.coarseCentroids[list]?
    codebook.pq.encode ops (ops.residual v centroid)
  else codebook.pq.encode ops v

def pushRow (codebook : IvfPqCodebook) (rowIds : List UInt64) (lists : InvertedLists)
    (p : List F32 × Nat) : Option InvertedLists := do
  let list := ops.nearestIdx p.1 codebook.coarseCentroids
  let codes ← encodeRow ops codebook p.1 list
  let rowId ← rowIds[p.2]?
  let ids ← Checked.modify lists.rowIds list (· ++ [rowId])
  let codes ← Checked.modify lists.codes list (· ++ codes)
  pure ⟨ids, codes⟩

def buildWithCodebook (rowIds : List UInt64) (vectors : List (List F32))
    (codebook : IvfPqCodebook) : Fallible IvfPqIndex :=
  if vectors.isEmpty then throw (.catalog "IVF-PQ build requires at least 1 vector")
  else do
    let vecs := vectors.map (ops.prepared codebook.metric)
    let lists ← ExceptT.lift (vecs.zipIdx.foldlM (pushRow ops codebook rowIds)
      ⟨List.replicate codebook.nlist [], List.replicate codebook.nlist []⟩)
    let config : IvfPqConfig := ⟨codebook.nlist, codebook.nprobe, codebook.pqM,
      codebook.pq.numCentroids, 0, codebook.residual⟩
    pure ⟨config, codebook.metric, codebook.dim, codebook.coarseCentroids, codebook.pq,
      lists.rowIds, lists.codes, codebook.residual⟩

def train (kmeans : KMeans) (rowIds : List UInt64) (vectors : List (List F32))
    (metric : VectorMetric) (config : IvfPqConfig) : Fallible IvfPqIndex := do
  let codebook ← trainCodebook ops kmeans vectors metric config
  buildWithCodebook ops rowIds vectors codebook

/- `total_cmp` on the distance of a pair. -/
def distanceKey (α : Type) (p : α × F32) : Int := p.2.totalOrder

variable (idx : IvfPqIndex)

def cells (q : List F32) : List (Nat × F32) :=
  idx.coarseCentroids.zipIdx.map fun p => (p.2, ops.l2Sq q p.1)

def scanRow (codesFlat : List UInt8) (adcTable : List (List F32)) (row : UInt64 × Nat) :
    Option (UInt64 × F32) := do
  let codes ← Checked.slice codesFlat (row.2 * idx.config.pqM) ((row.2 + 1) * idx.config.pqM)
  let dist ← PQCodebook.adcDistance ops codes adcTable
  pure (row.1, dist)

/-- One table for all lists, unless the codes are those of residuals. -/
def globalAdc (q : List F32) : Option (List (List F32)) :=
  if idx.residual then some [] else idx.pq.computeAdcTable ops q

def listAdc (q : List F32) (globalAdc : List (List F32)) (list : Nat) : Option (List (List F32)) :=
  if idx.residual then do
    let centroid ← idx.coarseCentroids[list]?
    idx.pq.computeAdcTable ops (ops.residual q centroid)
  else some globalAdc

def scanList (q : List F32) (globalAdc : List (List F32)) (list : Nat) :
    Option (List (UInt64 × F32)) := do
  let rowIds ← idx.invRowIds[list]?
  let codesFlat ← idx.invCodes[list]?
  let adcTable ← idx.listAdc ops q globalAdc list
  rowIds.zipIdx.mapM (idx.scanRow ops codesFlat adcTable)

/- The two sorts may order equal distances in any way. -/
def search (sortCells : UnstableSort (distanceKey Nat))
    (sortHits : UnstableSort (distanceKey UInt64)) (query : List F32) (topK : Nat)
    (nprobe : Option Nat) : Option (List (UInt64 × F32)) := do
  let nprobe := min (nprobe.getD idx.config.nprobe) idx.config.nlist
  let q := ops.prepared idx.metric query
  let probed := (sortCells.sort (idx.cells ops q)).take nprobe
  let globalAdc ← idx.globalAdc ops q
  let candidates ← probed.mapM fun cell => idx.scanList ops q globalAdc cell.1
  pure ((sortHits.sort candidates.flatten).take topK)

end IvfPqIndex

/-! The serialiser. -/

structure IvfPqSnapshotCore where
  nlist : Nat
  nprobe : Nat
  pqM : Nat
  pqK : Nat
  maxIter : Nat
  dim : Nat
  metric : UInt8
  coarseFlat : List F32
  pq : PQCodebook
  invRowIds : List (List UInt64)
  invCodes : List (List UInt8)
  deriving DecidableEq, Repr

def PQCodebook.toBytes (pq : PQCodebook) : Bytes :=
  usize pq.numSubvectors ++ (usize pq.numCentroids ++ (usize pq.subDim ++
    vec (vec (vec f32)) pq.centroids))

def PQCodebook.read : Reader PQCodebook := do
  let numSubvectors ← readUsize
  let numCentroids ← readUsize
  let subDim ← readUsize
  let centroids ← readVec (readVec (readVec readF32))
  pure ⟨numSubvectors, numCentroids, subDim, centroids⟩

namespace IvfPqSnapshotCore

def toBytes (core : IvfPqSnapshotCore) : Bytes :=
  usize core.nlist ++ (usize core.nprobe ++ (usize core.pqM ++ (usize core.pqK ++
    (usize core.maxIter ++ (usize core.dim ++ ([core.metric] ++ (vec f32 core.coarseFlat ++
      (core.pq.toBytes ++ (vec (vec u64) core.invRowIds ++
        vec (vec fun b => [b]) core.invCodes)))))))))

def read : Reader IvfPqSnapshotCore := do
  let nlist ← readUsize
  let nprobe ← readUsize
  let pqM ← readUsize
  let pqK ← readUsize
  let maxIter ← readUsize
  let dim ← readUsize
  let metric ← readU8
  let coarseFlat ← readVec readF32
  let pq ← PQCodebook.read
  let invRowIds ← readVec (readVec readU64)
  let invCodes ← readVec (readVec readU8)
  pure ⟨nlist, nprobe, pqM, pqK, maxIter, dim, metric, coarseFlat, pq, invRowIds, invCodes⟩

end IvfPqSnapshotCore

namespace IvfPqSerializer

def metricToU8 : VectorMetric → UInt8
  | .cosine => 0
  | .euclidean => 1
  | .dotProduct => 2
  | .normalizedCosine => 3

def u8ToMetric (v : UInt8) : Except IndexError VectorMetric :=
  if v = 0 then .ok .cosine
  else if v = 1 then .ok .euclidean
  else if v = 2 then .ok .dotProduct
  else if v = 3 then .ok .normalizedCosine
  else .error (.catalog ("IVF-PQ codebook deserialization: unknown metric byte " ++
    toString v.toNat ++ " (valid: 0=Cosine, 1=Euclidean, 2=DotProduct, 3=NormalizedCosine)"))

def core (idx : IvfPqIndex) : IvfPqSnapshotCore :=
  ⟨idx.config.nlist, idx.config.nprobe, idx.config.pqM, idx.config.pqK, idx.config.maxIter, idx.dim,
    metricToU8 idx.metric, idx.coarseCentroids.flatten, idx.pq, idx.invRowIds, idx.invCodes⟩

def toBytes (idx : IvfPqIndex) : Bytes :=
  (core idx).toBytes ++ [if idx.residual then 1 else 0]

/- The byte after the core; older files have none. -/
def residualFlag (rest : Bytes) : Bool :=
  match rest with
  | [] => false
  | b :: _ => b ≠ 0

def decoded (core : IvfPqSnapshotCore) (metric : VectorMetric) (residual : Bool) : IvfPqIndex :=
  ⟨⟨core.nlist, core.nprobe, core.pqM, core.pqK, core.maxIter, residual⟩, metric, core.dim,
    chunksExact core.dim core.coarseFlat, core.pq, core.invRowIds, core.invCodes, residual⟩

def fromBytes (decode : Reader IvfPqSnapshotCore) (bytes : Bytes) : Fallible IvfPqIndex :=
  match decode bytes with
  | none => throw .bincode
  | some (core, rest) => do
    let metric ← ExceptT.mk (some (u8ToMetric core.metric))
    -- `chunks_exact` panics at a chunk size of zero
    if core.dim = 0 then ExceptT.lift none
    else pure (decoded core metric (residualFlag rest))

end IvfPqSerializer
end AiLake
