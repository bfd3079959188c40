import TrainVla.Worker.Settings
import TrainVla.Common.StateMachine
import TrainVla.Common.Heartbeat

/-! Monitoring the active job: its progress, its heartbeat, and its end. -/
namespace TrainVla.JobCompletion

open Interaction

def monitoredStatuses : List JobStatus := [.initializing, .training]

def uploadFailedMessage : String :=
  "Training completed but checkpoint upload failed; please resubmit the job."

def maxLogChars : ℕ := 2000

def truncateLogs (logs : String) : String :=
  if logs.length ≤ maxLogChars then logs
  else "...(truncated)...\n" ++ String.ofList (logs.toList.drop (logs.length - maxLogChars))

def checkpointPath (jobId : String) : String := s!"checkpoints/{jobId}.zip"

/-- `HeartbeatUpdater.mark_container_alive`. -/
def markContainerAlive (job : Job) : Service Job := do
  let now ← perform .now
  let updated := { job with heartbeatAt := some now }
  perform (.jobsUpdate job updated)
  pure updated

/-- `HeartbeatUpdater.record_progress`. -/
def recordProgress (job : Job) (latestProgress : Progress) : Service Job :=
  if !progressChanged job.progress latestProgress then pure job
  else do
    let now ← perform .now
    let updated := { job with progress := some latestProgress, heartbeatAt := some now }
    perform (.jobsUpdate job updated)
    pure updated

/-- `initializing` to `training`, where the job is not there yet. -/
def enterTraining (job : Job) : Service Job :=
  if job.status = .initializing then do
    let now ← perform .now
    let updated ← Prog.ofExcept (transition job .training now)
    perform (.jobsUpdate job updated)
    pure updated
  else pure job

/-- At most `attempts` uploads, until one succeeds. -/
def uploadAttempts (objectPath jobId : String) : ℕ → Service Bool
  | 0 => pure false
  | attempts + 1 => do
    match ← perform (.storageUploadFile objectPath jobId) with
    | .ok () => pure true
    | .error _ => uploadAttempts objectPath jobId attempts

def uploadWithRetries (settings : WorkerSettings) (objectPath jobId : String) : Service Bool :=
  uploadAttempts objectPath jobId (1 + settings.uploadRetries)

def markCompleted (job : Job) (checkpointGcsPath : String) : Service Job := do
  let now ← perform .now
  let completed ← Prog.ofExcept (transition job .completed now)
  let completed := { completed with checkpointGcsPath := some checkpointGcsPath }
  perform (.jobsUpdate job completed)
  perform (.removeJobDir job.id)
  pure completed

def markFailed (job : Job) (errorMessage : String) (cleanup : Bool) : Service Job := do
  let now ← perform .now
  let failed ← Prog.ofExcept (transition job .failed now)
  let failed := { failed with errorMessage := some errorMessage }
  perform (.jobsUpdate job failed)
  if cleanup then do
    perform (.removeJobDir job.id)
    pure failed
  else pure failed

/-- The message for a container that ended with an error, with the end of its log. -/
def exitMessage (exitCode : ℤ) (logs : String) : String :=
  let message := s!"Training container exited with code {exitCode}"
  if logs = "" then message
  else message ++ "\n\n--- last lines of container output ---\n" ++ truncateLogs logs

def getLogs (job : Job) : Service String :=
  match job.container? with
  | some containerId => perform (.dockerGetLogs containerId)
  | none => pure ""

def finalize (settings : WorkerSettings) (job : Job) (exitCode : ℤ) : Service Job := do
  let job ← enterTraining job
  if exitCode ≠ 0 then do
    let logs ← getLogs job
    markFailed job (exitMessage exitCode logs) true
  else do
    match ← perform (.packageCheckpoint job.id) with
    | .error e => markFailed job s!"Failed to package checkpoint: {e.str}" true
    | .ok () =>
      let uploaded ← uploadWithRetries settings (checkpointPath job.id) job.id
      if uploaded then markCompleted job (checkpointPath job.id)
      else markFailed job uploadFailedMessage false

def getExitCode (job : Job) : Service (Option ℤ) :=
  match job.container? with
  | some containerId => perform (.dockerGetExitCode containerId)
  | none => pure none

/-- The heartbeat part of a tick. -/
def followProgress (job : Job) (progress : Option Progress) (exitCode : Option ℤ) : Service Job :=
  match progress with
  | some latest => do
    let job ← enterTraining job
    recordProgress job latest
  | none =>
    if job.status = .initializing ∧ exitCode = none then markContainerAlive job else pure job

/-- A tick for the job that is monitored. -/
def monitor (lib : Library) (settings : WorkerSettings) (job : Job) : Service (Option Job) := do
  let file ← perform (.readProgressFile job.id)
  let progress ← Prog.ofExcept (ProgressReader.readProgress lib file)
  let exitCode ← getExitCode job
  let job ← followProgress job progress exitCode
  match exitCode with
  | none => pure (some job)
  | some code => do
    let job ← finalize settings job code
    pure (some job)

def tick (lib : Library) (settings : WorkerSettings) : Service (Option Job) := do
  match ← perform (.jobsListByStatuses monitoredStatuses) with
  | [] => pure none
  | job :: _ => monitor lib settings job

end TrainVla.JobCompletion
