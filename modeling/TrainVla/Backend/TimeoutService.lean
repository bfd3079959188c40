import TrainVla.World.Service
import TrainVla.Common.StateMachine
import TrainVla.Common.Heartbeat

/-! The heartbeat-timeout sweep. -/
namespace TrainVla.TimeoutService

open Interaction

def timeoutErrorMessage : String := "Job timed out: no heartbeat update within the allowed window"

def monitoredStatuses : List JobStatus := [.initializing, .training]

/-- The loop of the sweep over the candidates that are left. -/
def failTimedOut (now : ℤ) : List Job → Service (List Job)
  | [] => pure []
  | job :: jobs =>
    if isTimedOut job.status job.heartbeatAt now then do
      let failedJob ← Prog.ofExcept (transition job .failed now)
      let failedJob := { failedJob with errorMessage := some timeoutErrorMessage }
      perform (.jobsUpdate job failedJob)
      let failedJobs ← failTimedOut now jobs
      pure (failedJob :: failedJobs)
    else failTimedOut now jobs

def checkAndFailTimedOutJobs : Service (List Job) := do
  let now ← perform .now
  let candidates ← perform (.jobsListByStatuses monitoredStatuses)
  failTimedOut now candidates

end TrainVla.TimeoutService
