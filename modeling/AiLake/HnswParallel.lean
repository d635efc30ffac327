import AiLake.Hnsw
import AiLake.StoreProgram.Interleaving

/-! The parallel build of `hnsw.rs`: one task per node on a graph with a lock for each list. What a
task does under a lock is one step. -/
namespace AiLake.Hnsw

open BestFirst StoreProgram

inductive GraphOp where
  | readEntry
  | loadMax
  | readList (node layer : Nat)
  | writeList (node layer : Nat) (l : List Nat)
  | linkBack (nb layer i : Nat)
  | promote (i level : Nat)
  deriving DecidableEq, Repr

def GraphOp.Reply : GraphOp → Type
  | .readEntry => Option Nat
  | .loadMax => Nat
  | .readList _ _ => List Nat
  | .writeList _ _ _ | .linkBack _ _ _ => Except Fault Unit
  | .promote _ _ => Unit

def graph : Interface := ⟨GraphOp, GraphOp.Reply⟩

variable {D : Type} [DecidableEq D] {sp : Space D} (rt : Runtime sp)

namespace HnswIndex

variable (idx : HnswIndex)

/-- A change to a list that is passed over where the node has no list on the layer. -/
def ifListed (node layer : Nat) (change : Except Fault HnswIndex) : Except Fault HnswIndex := do
  let lists ← checked .outOfRange idx.neighbors[node]?
  if layer < lists.length then change else pure idx

def changed : Except Fault HnswIndex → Except Fault Unit × HnswIndex
  | .ok idx' => (.ok (), idx')
  | .error e => (.error e, idx)

def perform (_ : Unit) : (op : GraphOp) → op.Reply × HnswIndex
  | .readEntry => (idx.entryPoint, idx)
  | .loadMax => (idx.maxLayer, idx)
  | .readList node layer => (((idx.neighbors[node]?).bind (·[layer]?)).getD [], idx)
  | .writeList node layer l => idx.changed (idx.ifListed node layer (idx.setList node layer l))
  | .linkBack nb layer i => idx.changed (idx.ifListed nb layer (linkBack rt i layer idx nb))
  | .promote i level => ((), idx.promote i level)

/-! What a task does. The vectors and the levels stay as they are, so they are read from the index
that the build starts with. -/

def readEntry : Script graph Fault (Option Nat) := .call .readEntry .done

def loadMax : Script graph Fault Nat := .call .loadMax .done

def expandPar (layer c : Nat) : Script graph Fault (List Nat) :=
  match idx.nodeLevels[c]? with
  | none => pure []
  | some level => if level < layer then pure [] else .call (.readList c layer) .done

def explorePar (q : List F32) (ef layer : Nat) :
    Nat → Frontier D Nat → Script graph Fault (Frontier D Nat)
  | fuel, s =>
    match Frontier.next rt.heaps sp.infinity s, fuel with
    | none, _ => pure s
    | some _, 0 => .fail .stuck
    | some (c, s), fuel + 1 => do
      let nbs ← idx.expandPar layer c
      let s ← .ofExcept
        (nbs.foldlM (Frontier.offer rt.heaps sp.infinity (idx.distance sp q) ef) s)
      explorePar q ef layer fuel s

def searchLayerPar (q : List F32) (entryPoints : List Nat) (ef layer : Nat) :
    Script graph Fault (List (D × Nat)) := do
  Script.ofExcept (rt.reserve (16 * (ef * 2)))
  Script.ofExcept (rt.reserve (16 * (ef + 1)))
  let s ← .ofExcept (entryPoints.foldlM (Frontier.enter (idx.distance sp q)) .empty)
  let s ← idx.explorePar rt q ef layer idx.rowIds.length s
  .ofExcept (checked .order (rt.sort s.found))

/- A search without a result leaves the entry points as they are. -/
def descendPar (q : List F32) (lo : Nat) : Nat → List Nat → Script graph Fault (List Nat)
  | 0, eps => pure eps
  | hi + 1, eps =>
    if lo ≤ hi + 1 then do
      let w ← idx.searchLayerPar rt q eps 1 (hi + 1)
      descendPar q lo hi ((w.head?.map fun best => [best.2]).getD eps)
    else pure eps

def linkBacksPar (i layer : Nat) : List Nat → Script graph Fault Unit
  | [] => pure ()
  | nb :: rest => do
    let r ← .call (.linkBack nb layer i) .done
    Script.ofExcept r
    linkBacksPar i layer rest

def connectPar (i : Nat) (q : List F32) : Nat → List Nat → Script graph Fault Unit
  | 0, _ => pure ()
  | layer + 1, eps => do
    let w ← idx.searchLayerPar rt q eps idx.config.efConstruction layer
    let selected ← .ofExcept (idx.selectNeighborsHeuristic rt w (maxLinks idx.config.m layer))
    let r ← .call (.writeList i layer selected) .done
    Script.ofExcept r
    linkBacksPar i layer selected
    connectPar i q layer (w.map Prod.snd)

/- The top layer is loaded without the lock, and once more under it. -/
def promotePar (i level : Nat) : Script graph Fault Unit := do
  let cur ← loadMax
  if cur < level then .call (.promote i level) .done else pure ()

def insertPar (i : Nat) : Script graph Fault Unit := do
  let level ← .ofExcept (checked .outOfRange idx.nodeLevels[i]?)
  let q ← .ofExcept (idx.vector i)
  let ep ← readEntry
  let curMax ← loadMax
  let eps ← idx.descendPar rt q (level + 1) curMax [ep.getD 0]
  idx.connectPar rt i q (min level curMax + 1) eps
  promotePar i level

end HnswIndex

namespace HnswBuilder

variable (b : HnswBuilder)

/-- The graph before the first task: node 0 is the entry point. -/
def bootstrap (levels : Nat → Nat) : Except Fault HnswIndex := do
  (b.unlinked levels).nodeLevels.forM fun level => rt.reserve (32 * (level + 1))
  let top ← checked .outOfRange (b.unlinked levels).nodeLevels[0]?
  pure { b.unlinked levels with entryPoint := some 0, maxLayer := top }

end HnswBuilder
end AiLake.Hnsw
