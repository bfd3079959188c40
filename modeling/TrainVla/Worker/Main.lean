import TrainVla.Worker.Lock
import TrainVla.Worker.JobPoller
import TrainVla.Worker.JobCompletion
import TrainVla.Worker.OrphanReconciler

/-! The entry point of a worker process. -/
namespace TrainVla.WorkerMain

open Interaction

def lockFilePath : String := "/run/lerobot-worker/lerobot-worker.lock"

/-- `run_forever` up to its loop. -/
def startup (settings : WorkerSettings) : Service OrphanReconciler.ReconciliationResult := do
  let _ ← DiskManager.cleanupStaleTmpDirs settings.tmpStaleAfterSeconds
  OrphanReconciler.reconcile

/-- `main` up to its `try`. -/
def enter : WorkerLock.LockProgram WorkerLock := WorkerLock.acquire { path := lockFilePath }

/-- The `finally` of `main`. -/
def leave (lock : WorkerLock) : WorkerLock.LockProgram Unit := lock.release.discard

end TrainVla.WorkerMain
