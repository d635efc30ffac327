import AiLake.StoreProgram.Interleaving

/-! The compaction jobs of `serve.rs`: one job record, the calls that submit, cancel and retry it,
and their workers. `mutate_job` is one step under the job's lock. -/
namespace AiLake.CompactionJob

open StoreProgram

inductive JobStatus where
  | queued
  | running
  | cancelRequested
  | succeeded
  | failed
  | cancelled
  deriving DecidableEq, Repr

def JobStatus.text : JobStatus → String
  | .queued => "queued"
  | .running => "running"
  | .cancelRequested => "cancel_requested"
  | .succeeded => "succeeded"
  | .failed => "failed"
  | .cancelled => "cancelled"

def JobStatus.terminal : JobStatus → Bool
  | .succeeded | .failed | .cancelled => true
  | _ => false

structure CompactRequest where
  targetSize : Nat
  minFiles : Nat
  deriving DecidableEq, Repr

/-- `CompactRequest::default`, which is not what an empty JSON object stands for. -/
def CompactRequest.default : CompactRequest := ⟨0, 0⟩

structure JobRecord where
  id : String
  kind : String
  status : JobStatus
  createdAt : Nat
  updatedAt : Nat
  error : Option String
  result : Option String
  request : Option CompactRequest
  cancelRequested : Bool
  deriving DecidableEq, Repr

/-- The closures that `update`, `cancel` and `retry` hand to `mutate_job`. -/
inductive JobChange where
  | update (status : JobStatus) (result error : Option String)
  | cancel
  | retry
  deriving DecidableEq, Repr

def JobRecord.update (status : JobStatus) (result error : Option String) (job : JobRecord) :
    JobRecord :=
  { job with
    status := status
    result := result
    error := error
    cancelRequested := if status = .running then false else job.cancelRequested }

def JobRecord.cancel (job : JobRecord) : Except String JobRecord :=
  match job.status with
  | .queued => .ok { job with status := .cancelled }
  | .running => .ok { job with status := .cancelRequested, cancelRequested := true }
  | .cancelRequested | .cancelled => .ok job
  | _ => .error ("job " ++ job.id ++ " is already terminal")

def JobRecord.retry (job : JobRecord) : Except String JobRecord :=
  if ¬(job.status = .failed ∨ job.status = .cancelled) then
    .error ("job " ++ job.id ++ " is not retryable in status " ++ job.status.text)
  else if job.request.isNone then
    .error ("job " ++ job.id ++ " has no persisted request payload")
  else .ok { job with status := .queued, error := none, result := none, cancelRequested := false }

def JobChange.apply : JobChange → JobRecord → Except String JobRecord
  | .update status result error, job => .ok (job.update status result error)
  | .cancel, job => job.cancel
  | .retry, job => job.retry

/-- The calls; a compaction is entered and left in two steps. -/
inductive JobOp where
  | create (request : CompactRequest)
  | mutate (change : JobChange)
  | get
  | beginCompaction (request : CompactRequest)
  | endCompaction
  deriving DecidableEq, Repr

@[reducible] def JobOp.Reply : JobOp → Type
  | .create _ | .mutate _ => Except String JobRecord
  | .get => Option JobRecord
  | .beginCompaction _ => Unit
  | .endCompaction => Except String String

@[reducible] def jobInterface : Interface := ⟨JobOp, JobOp.Reply⟩

abbrev JobScript (α : Type) := Script jobInterface String α

def createJob (request : CompactRequest) : JobScript (Except String JobRecord) :=
  .call (.create request) .done
def mutateJob (change : JobChange) : JobScript (Except String JobRecord) :=
  .call (.mutate change) .done
def getJob : JobScript (Option JobRecord) := .call .get .done

def isCancelRequested : JobScript Bool := do
  let job ← getJob
  return (job.map (·.cancelRequested)).getD false

def updateJob (status : JobStatus) (result error : Option String) :
    JobScript (Except String JobRecord) :=
  mutateJob (.update status result error)

def executeCompaction (request : CompactRequest) : JobScript (Except String String) := do
  .call (.beginCompaction request) .done
  .call .endCompaction .done

/-- `spawn_compaction_job`. -/
def compactionWorker (job : JobRecord) : JobScript Unit := do
  if ← isCancelRequested then
    let _ ← updateJob .cancelled none (some "cancelled before start")
    return ()
  let _ ← updateJob .running none none
  let outcome ← executeCompaction (job.request.getD .default)
  match outcome with
  | .ok result => do
    if ← isCancelRequested then
      let _ ← updateJob .cancelled none (some "cancellation requested")
      return ()
    else
      let _ ← updateJob .succeeded (some result) none
      return ()
  | .error message => do
    let _ ← updateJob .failed none (some message)
    return ()

/-- The requests for one job. A request that is answered with a job goes on as the worker that it
spawns. -/
inductive JobCall where
  | submit (request : CompactRequest)
  | cancel
  | retry
  deriving DecidableEq, Repr

def spawned (reply : Except String JobRecord) : JobScript Unit :=
  match reply with
  | .ok job => compactionWorker job
  | .error message => .fail message

def JobCall.program : JobCall → JobScript Unit
  | .submit request => do
    let reply ← createJob request
    spawned reply
  | .cancel => do
    match ← mutateJob .cancel with
    | .ok _ => return ()
    | .error message => .fail message
  | .retry => do
    let reply ← mutateJob .retry
    spawned reply

/-! The record. -/

structure JobWorld where
  record : Option JobRecord
  clock : Nat
  deriving DecidableEq, Repr

/-- How a request to the store ends; an answer may be lost after the record was put. -/
inductive StoreOutcome where
  | ok
  | fails
  | lost
  deriving DecidableEq, Repr

structure JobStep where
  elapsed : Nat
  outcome : StoreOutcome
  compaction : Except String String

namespace JobWorld

def put (w : JobWorld) (outcome : StoreOutcome) (answered stored : JobRecord) :
    Except String JobRecord × JobWorld :=
  match outcome with
  | .ok => (.ok answered, { w with record := some stored })
  | .fails => (.error "store", w)
  | .lost => (.error "store", { w with record := some stored })

def submitted (w : JobWorld) (id : String) (request : CompactRequest) : JobRecord where
  id := id
  kind := "compact"
  status := .queued
  createdAt := w.clock
  updatedAt := w.clock
  error := none
  result := none
  request := some request
  cancelRequested := false

/-- The effect of a call on job `id`. -/
def answer (id : String) (w : JobWorld) (e : JobStep) : (op : JobOp) → op.Reply × JobWorld
  | .create request =>
    match w.record with
    | some job => (.error ("job already exists: " ++ job.id), w)
    | none => w.put e.outcome (w.submitted id request) (w.submitted id request)
  | .mutate change =>
    match w.record with
    | none => (.error "not found", w)
    | some job =>
      match change.apply job with
      | .error message => (.error message, w)
      | .ok job' => w.put e.outcome job' { job' with updatedAt := w.clock }
  | .get =>
    match e.outcome with
    | .ok => (w.record, w)
    | _ => (none, w)
  | .beginCompaction _ => ((), w)
  | .endCompaction => (e.compaction, w)

def perform (id : String) (w : JobWorld) (e : JobStep) (op : JobOp) : op.Reply × JobWorld :=
  answer id { w with clock := w.clock + e.elapsed } e op

end JobWorld
end AiLake.CompactionJob
