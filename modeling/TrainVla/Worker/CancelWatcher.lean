import TrainVla.Worker.Settings
import TrainVla.Common.StateMachine

/-! Cancellation handling. -/
namespace TrainVla.CancelWatcher

open Interaction

def cancellableStatuses : List JobStatus := [.queued, .initializing, .training]

/-- Kill the container of a job that has one, and remove the directory of the job. -/
def stopContainer (job : Job) : Service Unit :=
  match job.container? with
  | some containerId =>
    if job.status = .initializing ∨ job.status = .training then do
      Prog.ofExcept (← perform (.dockerKill containerId))
      perform (.removeJobDir job.id)
    else pure ()
  | none => pure ()

/-- The loop over the candidates that are left. -/
def cancelRequested (now : ℤ) : List Job → Service (List Job)
  | [] => pure []
  | job :: jobs =>
    if !job.cancelRequested then cancelRequested now jobs
    else do
      stopContainer job
      let updated ← Prog.ofExcept (transition job .cancelled now)
      perform (.jobsUpdate job updated)
      let cancelledJobs ← cancelRequested now jobs
      pure (updated :: cancelledJobs)

def processCancellations : Service (List Job) := do
  let now ← perform .now
  let candidates ← perform (.jobsListByStatuses cancellableStatuses)
  cancelRequested now candidates

end TrainVla.CancelWatcher
