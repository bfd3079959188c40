import TrainVla.World.Service
import TrainVla.Common.StateMachine
import TrainVla.Common.Quota

/-! Job lifecycle use cases: creation, listing, cancellation, download links. -/
namespace TrainVla.JobService

open Interaction

def downloadUrlExpiresInSeconds : ℤ := 7 * 24 * 60 * 60

def displayStatus : JobStatus → String
  | .queued => "queued"
  | .initializing => "running"
  | .training => "running"
  | .completed => "completed"
  | .failed => "failed"
  | .cancelled => "cancelled"

structure JobView where
  job : Job
  displayStatus : String
  queuePosition : Option ℕ

def createJob (userId : String) (policy : PolicyType) (sourceType : SourceType)
    (sourceRef : String) (trainingSteps : ℤ) : Service Job :=
  let stepsResult := validateTrainingSteps trainingSteps
  if !stepsResult.ok then .raise (.invalidTrainingSteps stepsResult.error)
  else do
    match ← perform (.usersGet userId) with
    | none => .raise (.userNotFound userId)
    | some user =>
      let activeJobs ← perform (.jobsListForUser userId)
      let today ← perform .now
      let quotaResult := canCreateJob user activeJobs (dateOf today)
      if !quotaResult.allowed then .raise (.quotaExceeded quotaResult.reason)
      else do
        let now ← perform .now
        let id ← perform .uuid4
        let job : Job :=
          { id, userId, policy, sourceType, sourceRef, trainingSteps
            status := .queued, createdAt := now, updatedAt := now }
        perform (.jobsCreate job)
        pure job

def getJob (jobId : String) : Service Job := do
  match ← perform (.jobsGet jobId) with
  | none => .raise (.jobNotFound jobId)
  | some job => pure job

/-- The view of one job; `index` raises when the identifier is not in the listing. -/
def viewOf (queuedIdsInOrder : List String) (job : Job) : Except Exc JobView :=
  if job.status = .queued then
    match queuedIdsInOrder.idxOf? job.id with
    | some i => .ok { job, displayStatus := displayStatus job.status, queuePosition := some (i + 1) }
    | none => .error (.other "ValueError" s!"'{job.id}' is not in list")
  else .ok { job, displayStatus := displayStatus job.status, queuePosition := none }

def listJobsForUser (userId : String) : Service (List JobView) := do
  let jobs ← perform (.jobsListForUser userId)
  let queued ← perform (.jobsListByStatuses [.queued])
  Prog.ofExcept (jobs.mapM (viewOf (queued.map Job.id)))

def requestCancel (userId jobId : String) : Service Job := do
  let job ← getJob jobId
  if job.userId ≠ userId then .raise (.notJobOwner jobId)
  else do
    let now ← perform .now
    let updated ← Prog.ofExcept (TrainVla.requestCancel job now)
    perform (.jobsUpdate job updated)
    pure updated

def getDownloadUrl (userId jobId : String) : Service String := do
  let job ← getJob jobId
  if job.userId ≠ userId then .raise (.notJobOwner jobId)
  else
    match job.checkpointGcsPath with
    | some path =>
      if job.status ≠ .completed ∨ path = "" then .raise (.downloadNotAvailable jobId)
      else perform (.storageGenerateDownloadUrl path downloadUrlExpiresInSeconds)
    | none => .raise (.downloadNotAvailable jobId)

end TrainVla.JobService
