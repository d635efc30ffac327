import AiLake.BestFirst
import AiLake.Checked
import AiLake.FileFormat

/-! `hnsw.rs` and `serialize.rs`: the graph index, its serial build, insertion and search, and the
check of a snapshot. A `usize` that would overflow shows as the access or reservation that uses it,
and is written out where it would not. Random levels are inputs. -/
namespace AiLake.Hnsw

open BestFirst

abbrev F16 := BitVec 16

/-- How a call goes wrong: an access out of range, a refused reservation, a sort of contradicting
comparisons, a loop without end. -/
inductive Fault where
  | outOfRange
  | capacity
  | order
  | stuck
  deriving DecidableEq, Repr

/-- The distances, with the `<` of `f32`: a NaN is below and above nothing. -/
structure Space (D : Type) where
  lt : D → D → Bool
  infinity : D
  dist : VectorMetric → List F32 → List F32 → D
  distF16 : VectorMetric → List F32 → List F16 → D
  toF16 : F32 → F16
  normalizeL2 : List F32 → List F32
  irrefl : ∀ a, ¬lt a a
  trans : ∀ a b c, lt a b → lt b c → lt a c
  length_normalizeL2 : ∀ v, (normalizeL2 v).length = v.length

/-- How the thread pool splits a range. -/
inductive Fork where
  | leaf (len : Nat)
  | fork (left right : Fork)

def Fork.size : Fork → Nat
  | .leaf len => len
  | .fork left right => left.size + right.size

abbrev Hit (D : Type) := UInt64 × D

/-- The standard library and the machine: `limit` is the largest reservation in bytes; a sort may
panic (`none`) where comparisons contradict each other. -/
structure Runtime {D : Type} (sp : Space D) where
  limit : Nat
  heaps : Heaps sp.lt Nat
  sort : List (D × Nat) → Option (List (D × Nat))
  selectNth : Nat → List (Hit D) → Option (List (Hit D))
  sortHits : List (Hit D) → Option (List (Hit D))
  fork : Nat → Fork
  sort_perm : ∀ {l r}, sort l = some r → r.Perm l
  sort_ordered : ∀ {l}, Consistent sp.lt (l.map Prod.fst) →
    ∃ r, sort l = some r ∧ r.Pairwise fun a b => ¬sp.lt b.1 a.1
  selectNth_perm : ∀ {k l r}, selectNth k l = some r → r.Perm l
  selectNth_ordered : ∀ {k l}, Consistent sp.lt (l.map Prod.snd) →
    ∃ r, selectNth k l = some r ∧ ∀ a ∈ r.take k, ∀ b ∈ r.drop k, ¬sp.lt b.2 a.2
  sortHits_perm : ∀ {l r}, sortHits l = some r → r.Perm l
  sortHits_ordered : ∀ {l}, Consistent sp.lt (l.map Prod.snd) →
    ∃ r, sortHits l = some r ∧ r.Pairwise fun a b => ¬sp.lt b.2 a.2
  size_fork : ∀ n, (fork n).size = n

structure HnswConfig where
  m : Nat
  efConstruction : Nat
  maxElements : Nat
  deriving DecidableEq, Repr

structure HnswIndex where
  config : HnswConfig
  metric : VectorMetric
  dim : Nat
  flatVecs : List F32
  flatVecsF16 : Option (List F16)
  rowIds : List UInt64
  neighbors : List (List (List Nat))
  nodeLevels : List Nat
  entryPoint : Option Nat
  maxLayer : Nat
  deriving DecidableEq, Repr

def checked {α : Type} (fault : Fault) : Option α → Except Fault α
  | none => .error fault
  | some a => .ok a

variable {D : Type} [DecidableEq D] {sp : Space D} (rt : Runtime sp)

def Runtime.reserve (bytes : Nat) : Except Fault Unit :=
  if bytes ≤ rt.limit then .ok () else .error .capacity

def truncated (results : List (Hit D)) (k : Nat) : Except Fault (List (Hit D)) :=
  if k < results.length then do
    let parted ← checked .order (rt.selectNth k results)
    pure (parted.take k)
  else pure results

def selectTopK (results : List (Hit D)) (k : Nat) : Except Fault (List (Hit D)) :=
  if k = 0 then pure []
  else do
    let results ← truncated rt results k
    checked .order (rt.sortHits results)

def trimTopKBuffer (results : List (Hit D)) (k : Nat) : Except Fault (List (Hit D)) :=
  if max (k * 2) (k + 1) ≤ results.length then selectTopK rt results k else pure results

def maxLinks (m layer : Nat) : Nat := if layer = 0 then 2 * m else m

namespace HnswIndex

variable (idx : HnswIndex)

def vector (i : Nat) : Except Fault (List F32) :=
  checked .outOfRange (Checked.slice idx.flatVecs (i * idx.dim) ((i + 1) * idx.dim))

def vectorF16 (f16s : List F16) (i : Nat) : Except Fault (List F16) :=
  checked .outOfRange (Checked.slice f16s (i * idx.dim) ((i + 1) * idx.dim))

variable (sp) in
/-- The distance of a node that is looked at for the first time; the tracker has a slot for each row. -/
def distance (q : List F32) (i : Nat) : Except Fault D :=
  if idx.rowIds.length ≤ i then .error .outOfRange
  else
    match idx.flatVecsF16 with
    | some f16s => (sp.distF16 idx.metric q) <$> idx.vectorF16 f16s i
    | none => (sp.dist idx.metric q) <$> idx.vector i

/- A node below the layer is passed over. -/
def expand (layer c : Nat) : Except Fault (List Nat) :=
  match idx.nodeLevels[c]? with
  | none => pure []
  | some level =>
    if level < layer then pure []
    else checked .outOfRange ((idx.neighbors[c]?).bind (·[layer]?))

def searchLayer (q : List F32) (entryPoints : List Nat) (ef layer : Nat) :
    Except Fault (List (D × Nat)) := do
  rt.reserve (16 * (ef * 2))
  rt.reserve (16 * (ef + 1))
  let s ← entryPoints.foldlM (Frontier.enter (idx.distance sp q)) .empty
  let s ← Frontier.explore rt.heaps sp.infinity (idx.distance sp q) (idx.expand layer) .stuck ef
    idx.rowIds.length s
  checked .order (rt.sort s.found)

/-- The greedy descent through the layers from `hi` down to `lo`. -/
def descend (q : List F32) (lo : Nat) : Nat → List Nat → Except Fault (List Nat)
  | 0, eps => pure eps
  | hi + 1, eps =>
    if lo ≤ hi + 1 then do
      let w ← idx.searchLayer rt q eps 1 (hi + 1)
      let best ← checked .outOfRange w.head?
      descend q lo hi [best.2]
    else pure eps

variable (sp) in
/-- A node that was selected is nearer to the candidate than the base is. -/
def closer (eVec : List F32) (dQE : D) (r : D × Nat) : Except Fault Bool := do
  let rVec ← idx.vector r.2
  pure (sp.lt (sp.dist idx.metric eVec rVec) dQE)

variable (sp) in
def selectLoop (m : Nat) : List (D × Nat) → List (D × Nat) → List (D × Nat) →
    Except Fault (List (D × Nat) × List (D × Nat))
  | [], result, discarded => pure (result, discarded)
  | e :: rest, result, discarded =>
    if m ≤ result.length then pure (result, discarded)
    else do
      let eVec ← idx.vector e.2
      let discard ← result.anyM (idx.closer sp eVec e.1)
      if discard then selectLoop m rest result (discarded ++ [e])
      else selectLoop m rest (result ++ [e]) discarded

/- Discarded candidates fill what is left; every caller keeps them. -/
def selectNeighborsHeuristic (candidates : List (D × Nat)) (m : Nat) : Except Fault (List Nat) := do
  rt.reserve (16 * m)
  let (result, discarded) ← idx.selectLoop sp m candidates [] []
  pure ((result ++ discarded.take (m - result.length)).map Prod.snd)

variable (sp) in
def candidate (nodeVec : List F32) (nb : Nat) : Except Fault (D × Nat) := do
  let v ← idx.vector nb
  pure (sp.dist idx.metric nodeVec v, nb)

def pruneConnections (conn : List Nat) (nodeVec : List F32) (mMax : Nat) :
    Except Fault (List Nat) :=
  if conn.length ≤ mMax then pure conn
  else do
    let candidates ← conn.mapM (idx.candidate sp nodeVec)
    let candidates ← checked .order (rt.sort candidates)
    idx.selectNeighborsHeuristic rt candidates mMax

def list (node layer : Nat) : Except Fault (List Nat) :=
  checked .outOfRange ((idx.neighbors[node]?).bind (·[layer]?))

/-- The list of a node on a layer, as it was read or written through an index. -/
def setList (node layer : Nat) (l : List Nat) : Except Fault HnswIndex := do
  let _ ← idx.list node layer
  pure { idx with neighbors := idx.neighbors.modify node (·.set layer l) }

def cutBack (nb layer : Nat) (conn : List Nat) : Except Fault (List Nat) :=
  if maxLinks idx.config.m layer < conn.length then do
    let nbVec ← idx.vector nb
    idx.pruneConnections rt conn nbVec (maxLinks idx.config.m layer)
  else pure conn

def linkBack (i layer : Nat) (idx : HnswIndex) (nb : Nat) : Except Fault HnswIndex := do
  let conn ← idx.list nb layer
  let conn ← idx.cutBack rt nb layer (conn ++ [i])
  idx.setList nb layer conn

/-- The layers below `layers`, from the highest one down. -/
def connect (i : Nat) (q : List F32) : Nat → List Nat → HnswIndex → Except Fault HnswIndex
  | 0, _, idx => pure idx
  | layer + 1, eps, idx => do
    let w ← idx.searchLayer rt q eps idx.config.efConstruction layer
    let selected ← idx.selectNeighborsHeuristic rt w (maxLinks idx.config.m layer)
    let idx ← idx.setList i layer selected
    let idx ← selected.foldlM (linkBack rt i layer) idx
    connect i q layer (w.map Prod.snd) idx

def promote (i level : Nat) : HnswIndex :=
  if idx.maxLayer < level then { idx with entryPoint := some i, maxLayer := level } else idx

/-- What the serial build and `insert_node` do for node `i`. -/
def insertAt (i level : Nat) (q : List F32) : Except Fault HnswIndex :=
  match idx.entryPoint with
  | none => pure { idx with entryPoint := some i, maxLayer := level }
  | some ep => do
    let eps ← idx.descend rt q (level + 1) idx.maxLayer [ep]
    let idx' ← connect rt i q (min level idx.maxLayer + 1) eps idx
    pure (idx'.promote i level)

def quantizeToF16 (sp : Space D) : HnswIndex :=
  { idx with flatVecsF16 := some (idx.flatVecs.map sp.toF16) }

/-- The index with a node appended that has no links yet. -/
def append (rowId : UInt64) (level : Nat) (v : List F32) : HnswIndex :=
  { idx with
    flatVecs := idx.flatVecs ++ v
    flatVecsF16 := none
    rowIds := idx.rowIds ++ [rowId]
    nodeLevels := idx.nodeLevels ++ [level]
    neighbors := idx.neighbors ++ [List.replicate (level + 1) []] }

variable (sp) in
/-- The vector as it is stored: normalised for this metric alone. -/
def stored (v : List F32) : List F32 :=
  if idx.metric = .normalizedCosine then sp.normalizeL2 v else v

def insertNode (rowId : UInt64) (v : List F32) (level : Nat) : Except Fault HnswIndex := do
  rt.reserve (24 * (level + 1))
  (idx.append rowId level (idx.stored sp v)).insertAt rt idx.rowIds.length level (idx.stored sp v)

def hit (e : D × Nat) : Except Fault (Hit D) := do
  let rowId ← checked .outOfRange idx.rowIds[e.2]?
  pure (rowId, e.1)

def hnswSearchTyped (q : List F32) (topK ef : Nat) : Except Fault (List (Hit D)) :=
  match idx.entryPoint with
  | none => pure []
  | some ep => do
    let eps ← idx.descend rt q 1 idx.maxLayer [ep]
    let w ← idx.searchLayer rt q eps (max ef topK) 0
    (w.take topK).mapM idx.hit

variable (sp) in
def row (q : List F32) (i : Nat) : Except Fault (Hit D) := do
  let v ← idx.vector i
  let rowId ← checked .outOfRange idx.rowIds[i]?
  pure (rowId, sp.dist idx.metric q v)

def scanRow (q : List F32) (topK : Nat) (best : List (Hit D)) (i : Nat) :
    Except Fault (List (Hit D)) := do
  let hit ← idx.row sp q i
  trimTopKBuffer rt (best ++ [hit]) topK

/-- The rows from `start` on, folded and reduced as the thread pool splits them. -/
def scanRows (q : List F32) (topK : Nat) : Fork → Nat → Except Fault (List (Hit D))
  | .leaf len, start => do
    let best ← (List.range' start len).foldlM (idx.scanRow rt q topK) []
    selectTopK rt best topK
  | .fork left right, start => do
    let a ← scanRows q topK left start
    let b ← scanRows q topK right (start + left.size)
    selectTopK rt (a ++ b) topK

def bruteForceTyped (q : List F32) (topK : Nat) : Except Fault (List (Hit D)) :=
  if topK = 0 then pure []
  else do
    let results ← idx.scanRows rt q topK (rt.fork idx.rowIds.length) 0
    selectTopK rt results topK

def searchTyped (q : List F32) (topK ef : Nat) : Except Fault (List (Hit D)) :=
  if idx.neighbors = [] then idx.bruteForceTyped rt q topK else idx.hnswSearchTyped rt q topK ef

/- The products wrap around. -/
def vectorOfRow (rowId : UInt64) : Except Fault (List F32) :=
  checked .outOfRange (Checked.slice idx.flatVecs (rowId.toNat * idx.dim % 2 ^ 64)
    ((rowId.toNat + 1) * idx.dim % 2 ^ 64))

variable (sp) in
/-- The exact distance of a candidate, by the vector that stands where its row id says. -/
def rescore (q : List F32) (hit : Hit D) : Except Fault (Hit D) := do
  let v ← idx.vectorOfRow hit.1
  pure (hit.1, sp.dist .normalizedCosine q v)

def search (query : List F32) (topK ef : Nat) : Except Fault (List (Hit D)) :=
  if idx.metric = .normalizedCosine then
    if idx.flatVecsF16.isSome then do
      let candidates ← idx.searchTyped rt (sp.normalizeL2 query) (max (max ef (topK * 10)) topK) ef
      let candidates ← candidates.mapM (idx.rescore sp (sp.normalizeL2 query))
      selectTopK rt candidates topK
    else idx.searchTyped rt (sp.normalizeL2 query) topK ef
  else idx.searchTyped rt query topK ef

end HnswIndex

structure HnswBuilder where
  config : HnswConfig
  metric : VectorMetric
  dim : Nat
  vectors : List (UInt64 × List F32)
  deriving DecidableEq, Repr

namespace HnswBuilder

variable (b : HnswBuilder)

/-- The index before the first insertion; node `i` has level `levels i`. -/
def unlinked (levels : Nat → Nat) : HnswIndex where
  config := b.config
  metric := b.metric
  dim := b.dim
  flatVecs := b.vectors.flatMap Prod.snd
  flatVecsF16 := none
  rowIds := b.vectors.map Prod.fst
  neighbors := (List.range b.vectors.length).map fun i => List.replicate (levels i + 1) []
  nodeLevels := (List.range b.vectors.length).map levels
  entryPoint := none
  maxLayer := 0

def insertNext (idx : HnswIndex) (i : Nat) : Except Fault HnswIndex := do
  let level ← checked .outOfRange idx.nodeLevels[i]?
  let q ← idx.vector i
  idx.insertAt rt i level q

def buildSerialTyped (levels : Nat → Nat) : Except Fault HnswIndex := do
  (b.unlinked levels).nodeLevels.forM fun level => rt.reserve (24 * (level + 1))
  (List.range b.vectors.length).foldlM (insertNext rt) (b.unlinked levels)

end HnswBuilder

/-! `serialize.rs`. -/

structure HnswSnapshot where
  m : Nat
  efConstruction : Nat
  maxElements : Nat
  metric : UInt8
  dim : Nat
  rowIds : List UInt64
  flatVecs : List F32
  neighbors : List (List (List Nat))
  nodeLevels : List Nat
  entryPoint : Option Nat
  maxLayer : Nat
  deriving DecidableEq, Repr

inductive SnapshotError where
  | catalog (message : String)
  | bincode (message : String)
  deriving DecidableEq, Repr

namespace HnswSerializer

def u8ToMetric (v : UInt8) : Except SnapshotError VectorMetric :=
  match v.toNat with
  | 0 => .ok .cosine
  | 1 => .ok .euclidean
  | 2 => .ok .dotProduct
  | 3 => .ok .normalizedCosine
  | _ => .error (.catalog ("HNSW index deserialization: unknown metric byte " ++ toString v ++
      " (valid: 0=Cosine, 1=Euclidean, 2=DotProduct, 3=NormalizedCosine)"))

def corrupt (text : String) : Except SnapshotError Unit :=
  .error (.bincode ("corrupt HNSW graph: " ++ text))

def checkNeighbor (n nb : Nat) : Except SnapshotError Unit :=
  if n ≤ nb then
    corrupt ("neighbor index " ++ toString nb ++ " out of bounds (n=" ++ toString n ++ ")")
  else pure ()

/- The sum wraps around. -/
def checkNode (n : Nat) (node : (List (List Nat) × Nat) × Nat) : Except SnapshotError Unit :=
  if node.1.1.length ≠ (node.1.2 + 1) % 2 ^ 64 then
    corrupt ("node " ++ toString node.2 ++ " has node_levels=" ++ toString node.1.2 ++
      " but neighbors[" ++ toString node.2 ++ "].len()=" ++ toString node.1.1.length)
  else node.1.1.forM fun perLayer => perLayer.forM (checkNeighbor n)

variable (snap : HnswSnapshot)

def checkEntryPoint : Except SnapshotError Unit :=
  match snap.entryPoint with
  | none => pure ()
  | some ep =>
    if snap.rowIds.length ≤ ep then
      corrupt ("entry_point " ++ toString ep ++ " out of bounds (n=" ++
        toString snap.rowIds.length ++ ")")
    else pure ()

/- The levels have been checked to be as many as the nodes. -/
def checkGraph : Except SnapshotError Unit :=
  let n := snap.rowIds.length
  if snap.neighbors.length ≠ n then
    corrupt ("neighbors.len()=" ++ toString snap.neighbors.length ++ " != row_ids.len()=" ++
      toString n)
  else if snap.nodeLevels.length ≠ n then
    corrupt ("node_levels.len()=" ++ toString snap.nodeLevels.length ++ " != row_ids.len()=" ++
      toString n)
  else do
    (snap.neighbors.zip snap.nodeLevels).zipIdx.forM (checkNode n)
    let maxNodeLevel := snap.nodeLevels.foldl max 0
    if snap.maxLayer ≠ maxNodeLevel then
      corrupt ("max_layer=" ++ toString snap.maxLayer ++ " != max(node_levels)=" ++
        toString maxNodeLevel)
    else pure ()

def checkLayers : Except SnapshotError Unit :=
  if snap.neighbors ≠ [] then checkGraph snap
  else if snap.maxLayer ≠ 0 then
    corrupt ("max_layer=" ++ toString snap.maxLayer ++ " but neighbors is empty (old format)")
  else pure ()

/- The product wraps around. -/
def checkVectors : Except SnapshotError Unit :=
  let expectedFlatLen := snap.rowIds.length * snap.dim % 2 ^ 64
  if snap.flatVecs.length ≠ expectedFlatLen then
    corrupt ("flat_vecs.len()=" ++ toString snap.flatVecs.length ++ " != row_ids.len()*dim=" ++
      toString expectedFlatLen)
  else pure ()

def validateSnapshot : Except SnapshotError Unit := do
  checkEntryPoint snap
  checkLayers snap
  checkVectors snap

def restored (metric : VectorMetric) : HnswIndex where
  config := ⟨snap.m, snap.efConstruction, snap.maxElements⟩
  metric := metric
  dim := snap.dim
  flatVecs := snap.flatVecs
  flatVecsF16 := none
  rowIds := snap.rowIds
  neighbors := snap.neighbors
  nodeLevels := snap.nodeLevels
  entryPoint := snap.entryPoint
  maxLayer := snap.maxLayer

/-- `decode` is the bincode decoder, with its error text. -/
def fromBytes (decode : List UInt8 → Except String HnswSnapshot) (bytes : List UInt8) :
    Except SnapshotError HnswIndex := do
  let snap ← (decode bytes).mapError .bincode
  let metric ← u8ToMetric snap.metric
  validateSnapshot snap
  pure (restored snap metric)

end HnswSerializer
end AiLake.Hnsw
