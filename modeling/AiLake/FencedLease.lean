import AiLake.StoreProgram.Interleaving
import Mathlib.Algebra.Group.Nat.Defs

/-! The leases of `object_store_backend.rs` on one lock path. Every request, reading of the clock
and access to an instance's memory is a call of its own. -/
namespace AiLake

open StoreProgram

structure LeasePayload where
  owner : String
  fence : Nat
  expiresMs : Nat
  deriving DecidableEq, Repr

structure HeldLock where
  owner : String
  fencingToken : Nat
  deriving DecidableEq, Repr

def lockLeaseMs : Nat := 120000

/-- The answer to `head` and `get`. -/
inductive Looked (α : Type) where
  | found (a : α)
  | notFound
  | error
  deriving DecidableEq, Repr

/-- The answer to a conditional put; `conflict` is `Precondition` or `AlreadyExists`. -/
inductive PutReply where
  | ok
  | conflict
  | notFound
  | error
  deriving DecidableEq, Repr

inductive LeaseError where
  | store
  deriving DecidableEq, Repr

/-- The calls; `A` are the instances and `τ` the etags. -/
inductive LeaseOp (A τ : Type) where
  | lockToken (a : A)
  | nowMs
  | head
  | get
  | create (payload : LeasePayload)
  | update (tag : τ) (payload : LeasePayload)
  | remember (a : A) (held : HeldLock)
  | remembered (a : A)
  | forget (a : A)

@[reducible] def LeaseOp.Reply {A τ : Type} : LeaseOp A τ → Type
  | .lockToken _ => String
  | .nowMs => Nat
  | .head => Looked τ
  | .get => Looked LeasePayload
  | .create _ | .update _ _ => PutReply
  | .remember _ _ | .forget _ => Unit
  | .remembered _ => Option HeldLock

@[reducible] def leaseInterface (A τ : Type) : Interface := ⟨LeaseOp A τ, LeaseOp.Reply⟩

abbrev LeaseScript (A τ α : Type) := Script (leaseInterface A τ) LeaseError α

section Programs

variable {A τ : Type}

def lockToken (a : A) : LeaseScript A τ String := .call (.lockToken a) .done
def nowMs : LeaseScript A τ Nat := .call .nowMs .done
def headLock : LeaseScript A τ (Looked τ) := .call .head .done
def getLock : LeaseScript A τ (Looked LeasePayload) := .call .get .done
def createLock (payload : LeasePayload) : LeaseScript A τ PutReply := .call (.create payload) .done
def updateLock (tag : τ) (payload : LeasePayload) : LeaseScript A τ PutReply :=
  .call (.update tag payload) .done
def rememberLock (a : A) (held : HeldLock) : LeaseScript A τ Unit := .call (.remember a held) .done
def rememberedLock (a : A) : LeaseScript A τ (Option HeldLock) := .call (.remembered a) .done
def forgetLock (a : A) : LeaseScript A τ Unit := .call (.forget a) .done

def leasePayload (owner : String) (fencingToken : Nat) : LeaseScript A τ LeasePayload := do
  let now ← nowMs
  return ⟨owner, fencingToken, now + lockLeaseMs⟩

def leaseIsExpired (content : LeasePayload) : LeaseScript A τ Bool := do
  let now ← nowMs
  return content.expiresMs ≤ now

def acquired (a : A) (owner : String) (fence : Nat) (reply : PutReply)
    (retry : LeaseScript A τ (Option Nat)) : LeaseScript A τ (Option Nat) :=
  match reply with
  | .ok => do
    rememberLock a ⟨owner, fence⟩
    return some fence
  | .conflict => return none
  | .notFound => retry
  | .error => .fail .store

/- `saturating_add`. -/
def nextFence (fence : Nat) : Nat := min (fence + 1) (2 ^ 64 - 1)

def acquireRound (a : A) (retry : LeaseScript A τ (Option Nat)) : LeaseScript A τ (Option Nat) := do
  let owner ← lockToken a
  match ← headLock with
  | .error => .fail .store
  | .notFound => do
    let payload ← leasePayload owner 1
    let reply ← createLock payload
    acquired a owner 1 reply (.fail .store)
  | .found tag => do
    match ← getLock with
    | .error | .notFound => .fail .store
    | .found current => do
      if !(← leaseIsExpired current) then
        return none
      let payload ← leasePayload owner (nextFence current.fence)
      let reply ← updateLock tag payload
      acquired a owner (nextFence current.fence) reply retry

/- The retry after an object that went away is bounded here; nothing deletes a lock object. -/
def tryAcquireLockFenced (a : A) : Nat → LeaseScript A τ (Option Nat)
  | 0 => acquireRound a (.fail .store)
  | n + 1 => acquireRound a (tryAcquireLockFenced a n)

def renewLockFenced (a : A) (fencingToken : Nat) : LeaseScript A τ Bool := do
  match ← rememberedLock a with
  | none => return false
  | some held => do
    if held.fencingToken ≠ fencingToken then
      return false
    match ← headLock with
    | .error => .fail .store
    | .notFound => do
      forgetLock a
      return false
    | .found tag => do
      match ← getLock with
      | .error | .notFound => .fail .store
      | .found current => do
        if current.owner ≠ held.owner ∨ current.fence ≠ held.fencingToken then
          forgetLock a
          return false
        if ← leaseIsExpired current then
          forgetLock a
          return false
        let payload ← leasePayload held.owner held.fencingToken
        match ← updateLock tag payload with
        | .ok => return true
        | .conflict => return false
        | .notFound | .error => .fail .store

def releaseLockFenced (a : A) (fencingToken : Nat) : LeaseScript A τ Unit := do
  match ← rememberedLock a with
  | none => return ()
  | some held => do
    if held.fencingToken ≠ fencingToken then
      return ()
    match ← headLock with
    | .error => .fail .store
    | .notFound => forgetLock a
    | .found tag => do
      match ← getLock with
      | .error => .fail .store
      | .notFound => forgetLock a
      | .found current => do
        if current.owner = held.owner ∧ current.fence = held.fencingToken then
          let now ← nowMs
          match ← updateLock tag ⟨held.owner, held.fencingToken, now - 1⟩ with
          | .ok | .conflict => forgetLock a
          | .notFound | .error => .fail .store
        else forgetLock a

def checkLockFence (a : A) (fencingToken : Nat) : LeaseScript A τ Bool := do
  match ← rememberedLock a with
  | none => return false
  | some held => do
    if held.fencingToken ≠ fencingToken then
      return false
    match ← headLock with
    | .error => .fail .store
    | .notFound => return false
    | .found _ => do
      match ← getLock with
      | .error | .notFound => .fail .store
      | .found current => do
        if current.owner = held.owner ∧ current.fence = fencingToken then
          let expired ← leaseIsExpired current
          return !expired
        else return false

end Programs

inductive LeaseCall (A : Type) where
  | acquire (a : A)
  | renew (a : A) (fencingToken : Nat)
  | release (a : A) (fencingToken : Nat)
  | check (a : A) (fencingToken : Nat)
  deriving DecidableEq, Repr

inductive LeaseAnswer where
  | token (fence : Option Nat)
  | flag (b : Bool)
  | unit
  deriving DecidableEq, Repr

namespace LeaseCall

variable {A τ : Type}

def caller : LeaseCall A → A
  | .acquire a | .renew a _ | .release a _ | .check a _ => a

def program (retries : Nat) : LeaseCall A → LeaseScript A τ LeaseAnswer
  | .acquire a => do return .token (← tryAcquireLockFenced a retries)
  | .renew a t => do return .flag (← renewLockFenced a t)
  | .release a t => do
    releaseLockFenced a t
    return .unit
  | .check a t => do return .flag (← checkLockFence a t)

end LeaseCall

/-! The object store and the instances. -/

/-- The lock object with the number of the write that made it; the clock; what each instance
remembers. -/
structure LeaseWorld (A : Type) where
  object : Option (LeasePayload × Nat)
  writes : Nat
  clock : Nat
  sequence : A → Nat
  memory : A → Option HeldLock

/-- What a call meets: time passes before it, and a request may fail. A put whose answer is lost was
carried out. -/
structure LeaseStep where
  elapsed : Nat
  fails : Bool
  lost : Bool
  deriving DecidableEq, Repr

namespace LeaseWorld

variable {A τ : Type} [DecidableEq A]

def init (clock : Nat) : LeaseWorld A := ⟨none, 0, clock, fun _ => 0, fun _ => none⟩

def wait (w : LeaseWorld A) (ms : Nat) : LeaseWorld A := { w with clock := w.clock + ms }

def write (w : LeaseWorld A) (payload : LeasePayload) : LeaseWorld A :=
  { w with object := some (payload, w.writes), writes := w.writes + 1 }

/-- A put whose condition holds. -/
def put (w : LeaseWorld A) (e : LeaseStep) (payload : LeasePayload) : PutReply × LeaseWorld A :=
  if e.fails then (.error, w)
  else if e.lost then (.error, w.write payload)
  else (.ok, w.write payload)

variable [DecidableEq τ] (pid : A → Nat) (etag : Nat → LeasePayload → τ)

/-- The effect of a call once the time before it has passed. -/
def answer (w : LeaseWorld A) (e : LeaseStep) : (op : LeaseOp A τ) → op.Reply × LeaseWorld A
  | .lockToken a => ("pid=" ++ toString (pid a) ++ "-" ++ toString w.clock ++ "-" ++
      toString (w.sequence a), { w with sequence := Function.update w.sequence a (w.sequence a + 1) })
  | .nowMs => (w.clock, w)
  | .head =>
    if e.fails then (.error, w)
    else
      match w.object with
      | none => (.notFound, w)
      | some (content, n) => (.found (etag n content), w)
  | .get =>
    if e.fails then (.error, w)
    else
      match w.object with
      | none => (.notFound, w)
      | some (content, _) => (.found content, w)
  | .create payload =>
    match w.object with
    | none => w.put e payload
    | some _ => (if e.fails then .error else .conflict, w)
  | .update tag payload =>
    match w.object with
    | none => (if e.fails then .error else .notFound, w)
    | some (content, n) =>
      if etag n content = tag then w.put e payload
      else (if e.fails then .error else .conflict, w)
  | .remember a held => ((), { w with memory := Function.update w.memory a (some held) })
  | .remembered a => (w.memory a, w)
  | .forget a => ((), { w with memory := Function.update w.memory a none })

def perform (w : LeaseWorld A) (e : LeaseStep) (op : LeaseOp A τ) : op.Reply × LeaseWorld A :=
  answer pid etag (w.wait e.elapsed) e op

end LeaseWorld
end AiLake
