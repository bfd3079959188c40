import TrainVla.Worker.Settings

/-! Reconciliation after a restart of the worker. -/
namespace TrainVla.OrphanReconciler

open Interaction

def monitoredStatuses : List JobStatus := [.initializing, .training]

structure ReconciliationResult where
  resumedJobs : List Job
  killedOrphanContainerIds : List String

def killAll : List String → Service Unit
  | [] => pure ()
  | containerId :: rest => do
    Prog.ofExcept (← perform (.dockerKill containerId))
    killAll rest

def reconcile : Service ReconciliationResult := do
  let runningContainerIds ← perform .dockerListRunningContainerIds
  let trackedJobs ← perform (.jobsListByStatuses monitoredStatuses)
  let trackedContainerIds := trackedJobs.filterMap Job.container?
  let resumedJobs := trackedJobs.filter fun job =>
    runningContainerIds.any fun id => job.containerId = some id
  let orphanIds := runningContainerIds.dedup.filter fun id => id ∉ trackedContainerIds
  killAll orphanIds
  pure { resumedJobs, killedOrphanContainerIds := orphanIds.insertionSort (· ≤ ·) }

end TrainVla.OrphanReconciler
