import TrainVla.Worker.CancelWatcher
import TrainVla.Worker.DatasetFetcher
import TrainVla.Common.Quota

/-! Draining the queue: cancellations first, then at most one start. -/
namespace TrainVla.JobPoller

open Interaction Store DatasetFetcher

def activeContainerStatuses : List JobStatus := [.initializing, .training]

def imageFor (settings : WorkerSettings) : PolicyType → String
  | .act => settings.actImage
  | .smolvla => settings.smolvlaImage

def buildContainerSpec (settings : WorkerSettings) (job : Job) (jobDir : String)
    (dataset : FetchedDataset) : ContainerSpec where
  image := imageFor settings job.policy
  name := s!"lerobot-job-{job.id}"
  command :=
    ["--source-type", job.sourceType.value, "--source-ref", job.sourceRef,
      "--training-steps", toString job.trainingSteps,
      "--input-dir", "/workspace/input", "--output-dir", "/workspace/output"]
  volumes := (Table.empty.put (dataset.inputDir, "/workspace/input")).put
    (s!"{jobDir}/output", "/workspace/output")
  environment := [("JOB_ID", job.id)]
  labels := [(lerobotJobIdLabel, job.id)]
  useGpu := settings.useGpu
  readOnlyPaths := if dataset.readOnly then [dataset.inputDir] else []

theorem buildContainerSpec_jobId? (settings : WorkerSettings) (job : Job) (jobDir : String)
    (dataset : FetchedDataset) :
    (buildContainerSpec settings job jobDir dataset).jobId? = some job.id := by
  simp [ContainerSpec.jobId?, buildContainerSpec]

/-- A dataset of the hub is the only directory of the cache that is mounted. -/
theorem cacheMounts_buildContainerSpec (settings : WorkerSettings) (job : Job) (jobDir repoId : String) :
    (buildContainerSpec settings job jobDir
      ⟨DiskManager.finalPathFor settings.hfCacheDir repoId, true⟩).cacheMounts =
        [DiskManager.finalNameFor repoId] := by
  have hbase : baseName (DiskManager.finalPathFor settings.hfCacheDir repoId) =
      DiskManager.finalNameFor repoId :=
    baseName_append _ (DiskManager.slash_not_mem_safeName repoId)
  unfold ContainerSpec.cacheMounts buildContainerSpec
  generalize DiskManager.finalPathFor settings.hfCacheDir repoId = inputDir at hbase
  generalize s!"{jobDir}/output" = outputDir
  show ((Table.putRows Prod.fst [(inputDir, "/workspace/input")]
    (outputDir, "/workspace/output")).filter fun mount => mount.1 ∈ [inputDir]).map _ = _
  by_cases h : outputDir = inputDir
  · simp [Table.putRows, h, hbase]
  · simp [Table.putRows, h, hbase]

def failDuringStart (job : Job) (errorMessage : String) : Service (Option Job) := do
  let now ← perform .now
  let failed ← Prog.ofExcept (transition job .failed now)
  let failed := { failed with errorMessage := some errorMessage }
  perform (.jobsUpdate job failed)
  pure (some failed)

/-- From the charged job to its container. -/
def launch (lib : Library) (settings : WorkerSettings) (job : Job) : Service (Option Job) := do
  let jobDir := s!"{settings.workdir}/{job.id}"
  match ← Prog.attempt (fetchForJob lib settings job jobDir) with
  | .error (.datasetFetch m) => failDuringStart job s!"Failed to fetch dataset: {m}"
  | .error e => .raise e
  | .ok dataset =>
    match ← perform (.dockerRun (buildContainerSpec settings job jobDir dataset)) with
    | .error e => failDuringStart job s!"Failed to start training container: {e.str}"
    | .ok containerId =>
      let started := { job with containerId := some containerId }
      perform (.jobsUpdate job started)
      pure (some started)

/-- `queued` to `initializing`, the daily quota, then the launch. -/
def startJob (lib : Library) (settings : WorkerSettings) (job : Job) : Service (Option Job) := do
  let now ← perform .now
  match ← perform (.usersGet job.userId) with
  | none => .raise (.userMissing job.userId)
  | some user =>
    let moved ← Prog.ofExcept (transition job .initializing now)
    let moved := { moved with heartbeatAt := some now }
    perform (.jobsUpdate job moved)
    perform (.usersUpdate (some job.id) user (recordJobStarted user (dateOf now)))
    launch lib settings moved

def startNextQueuedJob (lib : Library) (settings : WorkerSettings) : Service (Option Job) := do
  match ← perform (.jobsListByStatuses [.queued]) with
  | [] => pure none
  | job :: _ => startJob lib settings job

def tick (lib : Library) (settings : WorkerSettings) : Service (Option Job) := do
  let _ ← CancelWatcher.processCancellations
  let active ← perform (.jobsListByStatuses activeContainerStatuses)
  if active.isEmpty then startNextQueuedJob lib settings else pure none

end TrainVla.JobPoller
