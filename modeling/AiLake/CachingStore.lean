import AiLake.StoreProgram.Interleaving
import Mathlib.Data.List.Infix
import Mathlib.Algebra.GroupWithZero.Nat

/-! The caching store of `ailake-cache`: reads look up, fetch and insert in separate steps; writes
go to the store and drop the entries of their path. All instances share one manager and scope. -/
namespace AiLake.Cache

open StoreProgram

abbrev Bytes := List UInt8

/-- `str::contains` with a text, and `str::ends_with`. -/
def containsText (s t : String) : Bool := decide (t.toList <:+: s.toList)

def endsWith (s t : String) : Bool := decide (t.toList <:+ s.toList)

def startsWith (s t : String) : Bool := decide (t.toList <+: s.toList)

structure CacheConfig where
  space : String
  maxBytes : Nat
  ttlMs : Nat

inductive CacheKind where
  | metadata
  | index
  deriving DecidableEq, Repr

def CacheKind.text : CacheKind → String
  | .metadata => "metadata"
  | .index => "index"

structure Entry where
  value : Bytes
  expiresAt : Nat
  size : Nat
  deriving DecidableEq, Repr

structure LocalState where
  entries : String → Option Entry
  order : List String
  bytes : Nat

namespace LocalState

/-- `remove_local`. -/
def remove (s : LocalState) (key : String) : LocalState where
  entries := Function.update s.entries key none
  order := s.order.filter (· ≠ key)
  bytes := s.bytes - ((s.entries key).map (·.size)).getD 0

/-- The oldest entries go until the limit is kept. -/
def evict (maxBytes : Nat) (entries : String → Option Entry) (bytes : Nat) :
    List String → LocalState
  | [] => ⟨entries, [], bytes⟩
  | oldest :: order =>
    if bytes > maxBytes then
      match entries oldest with
      | some old => evict maxBytes (Function.update entries oldest none) (bytes - old.size) order
      | none => evict maxBytes entries bytes order
    else ⟨entries, oldest :: order, bytes⟩

/-- `insert_local`. -/
def insert (maxBytes : Nat) (s : LocalState) (key : String) (value : Bytes) (expiresAt : Nat) :
    LocalState :=
  evict maxBytes (Function.update s.entries key (some ⟨value, expiresAt, value.length⟩))
    (s.bytes - ((s.entries key).map (·.size)).getD 0 + value.length)
    (s.order.filter (· ≠ key) ++ [key])

/-- The local part of `get`. -/
def lookup (s : LocalState) (key : String) (now : Nat) : Option Bytes × LocalState :=
  match s.entries key with
  | none => (none, s)
  | some entry =>
    if entry.expiresAt > now then
      (some entry.value, { s with order := s.order.filter (· ≠ key) ++ [key] })
    else (none, s.remove key)

def drop (s : LocalState) (c : String → Bool) : LocalState where
  entries key := if c key then none else s.entries key
  order := s.order.filter fun key => !c key
  bytes := s.bytes - ((s.order.filter c).map fun key => ((s.entries key).map (·.size)).getD 0).sum

end LocalState

/-- The calls; `Option (Nat × Nat)` is the byte range. -/
inductive CacheOp where
  | snapshotFor
  | localGet (key : String)
  | redisGet (key : String)
  | localInsert (key : String) (value : Bytes)
  | redisPut (key : String) (value : Bytes)
  | innerGet (path : String) (range : Option (Nat × Nat))
  | innerPut (path : String) (data : Bytes)
  | innerDelete (path : String)
  | invalidateIdentity (path : String)
  | setSnapshot (snapshot : Int)
  | invalidateSnapshot (snapshot : Int)
  deriving DecidableEq, Repr

@[reducible] def CacheOp.Reply : CacheOp → Type
  | .snapshotFor => Option Int
  | .localGet _ | .redisGet _ | .innerGet _ _ => Option Bytes
  | .innerPut _ _ | .innerDelete _ => Bool
  | _ => Unit

@[reducible] def cacheInterface : Interface := ⟨CacheOp, CacheOp.Reply⟩

inductive StoreError where
  | store
  deriving DecidableEq, Repr

abbrev CacheScript (α : Type) := Script cacheInterface StoreError α

section Programs

variable (config : CacheConfig) (scope : String)

/-- `CacheManager::key`. -/
def cacheKey (kind : CacheKind) (snapshot : Option Int) (identity : String) : String :=
  config.space ++ ":" ++ kind.text ++ ":" ++ scope ++ ":" ++
    (match snapshot with
      | none => "current"
      | some id => toString id) ++ ":" ++ identity

def cacheable (path : String) : Bool :=
  !(containsText path "ailake-serve" || containsText path "ailake-jobs" ||
    containsText path "ailake_jobs" || containsText path "index-jobs" || endsWith path ".lock" ||
    endsWith path ".cancel")

def kindOf (path : String) : CacheKind :=
  if startsWith path "metadata/" && !containsText path "manifest" then .metadata else .index

def identityOf (path : String) : Option (Nat × Nat) → String
  | some range => path ++ "#" ++ toString range.1 ++ "-" ++ toString range.2
  | none => path

def readKey (path : String) (range : Option (Nat × Nat)) (snapshot : Option Int) : String :=
  cacheKey config scope (kindOf path) snapshot (identityOf path range)

def innerRead (path : String) (range : Option (Nat × Nat)) : CacheScript Bytes := do
  match ← (.call (.innerGet path range) .done : CacheScript (Option Bytes)) with
  | some value => return value
  | none => .fail .store

/-- `CacheManager::get`. Without a second tier `redisGet` finds nothing. -/
def cacheGet (key : String) : CacheScript (Option Bytes) := do
  match ← (.call (.localGet key) .done : CacheScript (Option Bytes)) with
  | some value => return some value
  | none => do
    match ← (.call (.redisGet key) .done : CacheScript (Option Bytes)) with
    | some value => do
      .call (.localInsert key value) .done
      return some value
    | none => return none

/-- `CacheManager::put`. -/
def cachePut (key : String) (value : Bytes) : CacheScript Unit := do
  .call (.localInsert key value) .done
  .call (.redisPut key value) .done

def read (path : String) (range : Option (Nat × Nat)) : CacheScript Bytes :=
  if cacheable path then do
    let snapshot ← (.call .snapshotFor .done : CacheScript (Option Int))
    match ← cacheGet (readKey config scope path range snapshot) with
    | some value => return value
    | none => do
      let value ← innerRead path range
      cachePut (readKey config scope path range snapshot) value
      return value
  else innerRead path range

def invalidate (path : String) (written : Bool) : CacheScript Unit :=
  if written then .call (.invalidateIdentity path) .done else .fail .store

def put (path : String) (data : Bytes) : CacheScript Unit := do
  let written ← (.call (.innerPut path data) .done : CacheScript Bool)
  invalidate path written

def delete (path : String) : CacheScript Unit := do
  let written ← (.call (.innerDelete path) .done : CacheScript Bool)
  invalidate path written

def observeSnapshot (snapshot : Int) : CacheScript Unit := do
  .call (.setSnapshot snapshot) .done
  .call (.invalidateSnapshot snapshot) .done

/-- The calls on the instances, and the snapshots that the server observes. -/
inductive CacheCall where
  | get (path : String) (range : Option (Nat × Nat))
  | put (path : String) (data : Bytes)
  | delete (path : String)
  | observe (snapshot : Int)
  deriving DecidableEq, Repr

def CacheCall.program : CacheCall → CacheScript (Option Bytes)
  | .get path range => do return some (← read config scope path range)
  | .put path data => do
    Cache.put path data
    return none
  | .delete path => do
    Cache.delete path
    return none
  | .observe snapshot => do
    observeSnapshot snapshot
    return none

end Programs

/-! The tiers and the store. -/

/-- All contents that each path has had, the current one last; the two tiers; the snapshot. -/
structure CacheWorld where
  history : String → List (Option Bytes)
  tier : LocalState
  redis : Option (String → Option (Bytes × Nat))
  snapshot : Option Int
  clock : Nat

structure CacheStep where
  elapsed : Nat
  fails : Bool
  lost : Bool
  deriving DecidableEq, Repr

namespace CacheWorld

variable (config : CacheConfig) (scope : String) (slice : Bytes → Nat × Nat → Option Bytes)

def content (w : CacheWorld) (path : String) : Option Bytes := (w.history path).getLast?.getD none

/-- What the store reads of a content. -/
def part (slice : Bytes → Nat × Nat → Option Bytes) (content : Bytes) :
    Option (Nat × Nat) → Option Bytes
  | none => some content
  | some range => slice content range

def write (w : CacheWorld) (path : String) (content : Option Bytes) : CacheWorld :=
  { w with history := Function.update w.history path (w.history path ++ [content]) }

/-- A put or a delete; one whose answer is lost was carried out. -/
def store (w : CacheWorld) (e : CacheStep) (path : String) (content : Option Bytes) :
    Bool × CacheWorld :=
  if e.fails then (false, w)
  else if e.lost then (false, w.write path content)
  else (true, w.write path content)

def redisLookup (w : CacheWorld) (key : String) : Option Bytes :=
  match w.redis with
  | none => none
  | some entries =>
    match entries key with
    | none => none
    | some entry => if entry.2 > w.clock then some entry.1 else none

def redisInsert (w : CacheWorld) (key : String) (value : Bytes) : CacheWorld :=
  { w with redis := w.redis.map fun entries =>
      Function.update entries key (some (value, w.clock + max (config.ttlMs / 1000) 1 * 1000)) }

/-- The keys that the write of a path drops. -/
def dropped (path key : String) : Bool := containsText key (":" ++ scope ++ ":") && endsWith key path

/-- The keys of other snapshots. -/
def outdated (snapshot : Int) (key : String) : Bool :=
  containsText key (scope ++ ":") && !containsText key (":" ++ toString snapshot ++ ":")

/-- The effect of a call once the time before it has passed. -/
def answer (w : CacheWorld) (e : CacheStep) : (op : CacheOp) → op.Reply × CacheWorld
  | .snapshotFor => (w.snapshot, w)
  | .localGet key => ((w.tier.lookup key w.clock).1, { w with tier := (w.tier.lookup key w.clock).2 })
  | .redisGet key => (if e.fails then none else w.redisLookup key, w)
  | .localInsert key value =>
    ((), { w with tier := w.tier.insert config.maxBytes key value (w.clock + config.ttlMs) })
  | .redisPut key value => ((), if e.fails then w else w.redisInsert config key value)
  | .innerGet path range =>
    (if e.fails then none else (w.content path).bind fun content => part slice content range, w)
  | .innerPut path data => w.store e path (some data)
  | .innerDelete path => w.store e path none
  | .invalidateIdentity path => ((), { w with tier := w.tier.drop (dropped scope path) })
  | .setSnapshot snapshot => ((), { w with snapshot := some snapshot })
  | .invalidateSnapshot snapshot => ((), { w with tier := w.tier.drop (outdated scope snapshot) })

def perform (w : CacheWorld) (e : CacheStep) (op : CacheOp) : op.Reply × CacheWorld :=
  answer config scope slice { w with clock := w.clock + e.elapsed } e op

end CacheWorld
end AiLake.Cache
