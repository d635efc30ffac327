import AiLake.StoreProgram.Interleaving

/-! The index jobs of `index_jobs.rs`: a job's record, cancel marker and run lock, and the calls of
workers, cancellers and restarts. Every request, reading of the clock and access to a handle's token
is a call of its own. -/
namespace AiLake.IndexJob

open StoreProgram

inductive Status where
  | queued
  | running
  | succeeded
  | failed
  | cancelled
  deriving DecidableEq, Repr

def Status.text : Status → String
  | .queued => "queued"
  | .running => "running"
  | .succeeded => "succeeded"
  | .failed => "failed"
  | .cancelled => "cancelled"

/-- The fields that the calls read or change. -/
structure IndexJobRecord where
  id : String
  status : Status
  progress : Nat
  attempts : Nat
  createdAt : Nat
  updatedAt : Nat
  error : Option String
  cancelRequested : Bool
  deriving DecidableEq, Repr

def maxAttempts : Nat := 3

inductive JobError where
  | backend
  | store (message : String)
  | invalidArgument (message : String)
  deriving DecidableEq, Repr

/-- The calls; `H` are the handles, whose clones share one token. -/
inductive JobOp (H : Type) where
  | get
  | put (record : IndexJobRecord)
  | nowMs
  | cancelExists
  | putCancel
  | deleteCancel
  | tryAcquire (h : H)
  | checkFence (fence : Nat)
  | renewLock (fence : Nat)
  | releaseLock (fence : Nat)
  | token (h : H)
  | setToken (h : H) (fence : Nat)
  | takeToken (h : H)

/-- What a call is answered: `none` and `false` are the errors of the store, and a lock that is held
answers `some none`. -/
@[reducible] def JobOp.Reply {H : Type} : JobOp H → Type
  | .get => Option IndexJobRecord
  | .put _ | .putCancel | .deleteCancel | .releaseLock _ => Bool
  | .nowMs => Nat
  | .cancelExists | .checkFence _ | .renewLock _ => Option Bool
  | .tryAcquire _ => Option (Option Nat)
  | .token _ | .takeToken _ => Option Nat
  | .setToken _ _ => Unit

@[reducible] def jobInterface (H : Type) : Interface := ⟨JobOp H, JobOp.Reply⟩

abbrev JobScript (H α : Type) := Script (jobInterface H) JobError α

section Programs

variable {H : Type}

def record : JobScript H IndexJobRecord := do
  match ← .call .get .done with
  | some record => return record
  | none => .fail .backend

def write (record : IndexJobRecord) : JobScript H Unit := do
  let now ← .call .nowMs .done
  match ← .call (.put { record with updatedAt := now }) .done with
  | true => return ()
  | false => .fail .backend

def writeFenced (h : H) (record : IndexJobRecord) : JobScript H Unit := do
  match ← .call (.token h) .done with
  | none => .fail (.store "index job is not fenced")
  | some fence => do
    match ← .call (.checkFence fence) .done with
    | none => .fail .backend
    | some false => .fail (.store "index job fencing token is no longer valid")
    | some true => write record

def releaseClaim (h : H) : JobScript H Unit := do
  match ← .call (.takeToken h) .done with
  | none => return ()
  | some fence => do
    match ← .call (.releaseLock fence) .done with
    | true => return ()
    | false => .fail .backend

def isCancelRequested : JobScript H Bool := do
  let job ← record
  if job.cancelRequested then
    return true
  match ← .call .cancelExists .done with
  | some b => return b
  | none => .fail .backend

def IndexJobRecord.cancelledEarly (job : IndexJobRecord) : IndexJobRecord :=
  { job with
    status := .cancelled
    error := some "cancelled before execution"
    cancelRequested := true }

def IndexJobRecord.started (job : IndexJobRecord) : IndexJobRecord :=
  { job with status := .running, attempts := job.attempts + 1, error := none }

def claimFenced (h : H) : JobScript H Bool := do
  let job ← record
  if job.status = .succeeded ∨ job.status = .cancelled ∨ maxAttempts ≤ job.attempts then
    releaseClaim h
    return false
  if ← isCancelRequested then
    writeFenced h job.cancelledEarly
    releaseClaim h
    return false
  match ← (writeFenced h job.started).attempt with
  | .ok _ => return true
  | .error error => do
    let _ ← (releaseClaim h).attempt
    .fail error

def tryClaim (h : H) : JobScript H Bool := do
  match ← .call (.tryAcquire h) .done with
  | none => .fail .backend
  | some none => return false
  | some (some fence) => do
    .call (.setToken h fence) .done
    claimFenced h

def renewClaim (h : H) : JobScript H Bool := do
  match ← .call (.token h) .done with
  | none => return false
  | some fence => do
    match ← .call (.renewLock fence) .done with
    | some b => return b
    | none => .fail .backend

def updateProgress (h : H) (progress : Nat) : JobScript H Unit := do
  let job ← record
  if job.status = .running then
    writeFenced h { job with progress := min progress 99 }
  else return ()

def succeed (h : H) : JobScript H Unit := do
  let job ← record
  writeFenced h { job with status := .succeeded, progress := 100, error := none }

def markCancelled (h : H) (reason : String) : JobScript H Unit := do
  let job ← record
  let job' := { job with status := .cancelled, error := some reason, cancelRequested := true }
  match ← .call (.token h) .done with
  | some _ => writeFenced h job'
  | none => write job'

def failOrRetry (h : H) (error : String) : JobScript H Bool := do
  let job ← record
  if job.attempts < maxAttempts ∧ job.cancelRequested = false then
    writeFenced h { job with error := some error, status := .queued, progress := 0 }
    return true
  else
    writeFenced h { job with error := some error, status := .failed }
    return false

def requestCancel : JobScript H IndexJobRecord := do
  let job ← record
  if job.status = .succeeded ∨ job.status = .failed ∨ job.status = .cancelled then
    .fail (.invalidArgument ("index job " ++ job.id ++ " is already " ++ job.status.text))
  else do
    match ← .call .putCancel .done with
    | false => .fail .backend
    | true => do
      write { job with cancelRequested := true }
      return { job with cancelRequested := true }

def IndexJobRecord.retried (job : IndexJobRecord) : IndexJobRecord :=
  { job with
    status := .queued
    progress := 0
    attempts := 0
    error := none
    cancelRequested := false }

def retry : JobScript H IndexJobRecord := do
  let job ← record
  if ¬(job.status = .failed ∨ job.status = .cancelled) then
    .fail (.invalidArgument ("index job " ++ job.id ++ " cannot be retried from " ++
      job.status.text))
  else do
    let _ ← .call .deleteCancel .done
    write job.retried
    return job.retried

def IndexJobRecord.abandoned (job : IndexJobRecord) (cancel : Bool) : IndexJobRecord :=
  if cancel then
    { job with
      status := .cancelled
      cancelRequested := true
      error := some "cancelled while the previous worker stopped" }
  else { job with status := .queued, error := some "worker recovered after process restart" }

def recoverAfterRestart : JobScript H Bool := do
  let job ← record
  if job.status ≠ .running then
    return job.status = .queued
  if maxAttempts ≤ job.attempts then
    write { job with
      status := .failed
      error := some "worker stopped after the retry limit was reached" }
    return false
  let cancel ← isCancelRequested
  write (job.abandoned cancel)
  return (job.abandoned cancel).status = .queued

end Programs

inductive JobCall (H : Type) where
  | tryClaim (h : H)
  | renewClaim (h : H)
  | releaseClaim (h : H)
  | updateProgress (h : H) (progress : Nat)
  | succeed (h : H)
  | markCancelled (h : H) (reason : String)
  | failOrRetry (h : H) (error : String)
  | requestCancel
  | retry
  | recoverAfterRestart
  deriving DecidableEq, Repr

namespace JobCall

variable {H : Type}

def worker : JobCall H → Option H
  | .tryClaim h | .renewClaim h | .releaseClaim h | .updateProgress h _ | .succeed h
  | .markCancelled h _ | .failOrRetry h _ => some h
  | .requestCancel | .retry | .recoverAfterRestart => none

def program : JobCall H → JobScript H Unit
  | .tryClaim h => do let _ ← IndexJob.tryClaim h
  | .renewClaim h => do let _ ← IndexJob.renewClaim h
  | .releaseClaim h => IndexJob.releaseClaim h
  | .updateProgress h progress => IndexJob.updateProgress h progress
  | .succeed h => IndexJob.succeed h
  | .markCancelled h reason => IndexJob.markCancelled h reason
  | .failOrRetry h error => do let _ ← IndexJob.failOrRetry h error
  | .requestCancel => do let _ ← IndexJob.requestCancel
  | .retry => do let _ ← IndexJob.retry
  | .recoverAfterRestart => do let _ ← IndexJob.recoverAfterRestart

end JobCall

/-! The store. -/

/-- The job's objects and the handles' tokens. `holder` is the token that holds the run lock,
`lastFence` the last one handed out, `claimed` that of a handle's last claim, unless given back
before the next was handed out. -/
structure JobWorld (H : Type) where
  record : IndexJobRecord
  cancelMarker : Bool
  clock : Nat
  lastFence : Nat
  holder : Option Nat
  tokens : H → Option Nat
  claimed : H → Option Nat

/-- How a request to the store ends; an answer may be lost after the request was carried out. -/
inductive StoreOutcome where
  | ok
  | fails
  | lost
  deriving DecidableEq, Repr

/-- What a call meets: time passes before it, the lease of the run lock may run out, and the next token
may skip some numbers. -/
structure JobStep where
  elapsed : Nat
  outcome : StoreOutcome
  expires : Bool
  skipped : Nat
  deriving DecidableEq, Repr

namespace JobWorld

variable {H : Type} [DecidableEq H]

def created (id : String) (clock lastFence : Nat) : JobWorld H where
  record := ⟨id, .queued, 0, 0, clock, clock, none, false⟩
  cancelMarker := false
  clock := clock
  lastFence := lastFence
  holder := none
  tokens _ := none
  claimed _ := none

def request (w w' : JobWorld H) : StoreOutcome → Bool × JobWorld H
  | .ok => (true, w')
  | .fails => (false, w)
  | .lost => (false, w')

/-- The lock is handed out under a token that was never handed out before. -/
def grant (w : JobWorld H) (skipped : Nat) : JobWorld H :=
  { w with
    lastFence := w.lastFence + 1 + skipped
    holder := some (w.lastFence + 1 + skipped) }

def claim (w : JobWorld H) (h : H) : JobWorld H :=
  { w with claimed := Function.update w.claimed h (some w.lastFence) }

def giveBack (w : JobWorld H) (h : H) : JobWorld H :=
  { w with
    tokens := Function.update w.tokens h none
    claimed := if w.claimed h = some w.lastFence then Function.update w.claimed h none
      else w.claimed }

/-- The effect of a call once the time before it has passed. -/
def answer (w : JobWorld H) (e : JobStep) : (op : JobOp H) → op.Reply × JobWorld H
  | .get => (if e.outcome = .ok then some w.record else none, w)
  | .put record => w.request { w with record := record } e.outcome
  | .nowMs => (w.clock, w)
  | .cancelExists => (if e.outcome = .ok then some w.cancelMarker else none, w)
  | .putCancel => w.request { w with cancelMarker := true } e.outcome
  | .deleteCancel => w.request { w with cancelMarker := false } e.outcome
  | .tryAcquire h =>
    match e.outcome, w.holder with
    | .fails, _ => (none, w)
    | _, some _ => (some none, w)
    | .ok, none => (some (some (w.lastFence + 1 + e.skipped)), (w.grant e.skipped).claim h)
    | .lost, none => (none, w.grant e.skipped)
  | .checkFence fence =>
    (if e.outcome = .ok then some (w.holder = some fence) else none, w)
  | .renewLock fence =>
    (if e.outcome = .ok then some (w.holder = some fence) else none, w)
  | .releaseLock fence =>
    w.request { w with holder := if w.holder = some fence then none else w.holder } e.outcome
  | .token h => (w.tokens h, w)
  | .setToken h fence => ((), { w with tokens := Function.update w.tokens h (some fence) })
  | .takeToken h => (w.tokens h, w.giveBack h)

/-- Time passes, and a lease may run out. -/
def wait (w : JobWorld H) (e : JobStep) : JobWorld H :=
  { w with
    clock := w.clock + e.elapsed
    holder := if e.expires then none else w.holder }

def perform (w : JobWorld H) (e : JobStep) (op : JobOp H) : op.Reply × JobWorld H :=
  (w.wait e).answer e op

end JobWorld
end AiLake.IndexJob
