import TrainVla.Worker.JobPoller
import TrainVla.Worker.JobCompletion

/-! What a container is started with. -/
namespace TrainVla

/-- An entry of the `volumes` that `docker` is given. -/
structure BindMount where
  host : String
  bind : String
  mode : String

namespace DockerRunner

def mounts (spec : ContainerSpec) : List BindMount :=
  spec.volumes.rows.map fun (host, containerPath) =>
    { host, bind := containerPath, mode := if host ∈ spec.readOnlyPaths then "ro" else "rw" }

/-- The mount that a path of the container lies in. -/
def mountAt? (spec : ContainerSpec) (containerPath : String) : Option BindMount :=
  (mounts spec).find? fun mount => mount.bind = containerPath

end DockerRunner

/-- `_output_dir`, where the progress and the checkpoint of a job are looked for. -/
def JobCompletion.outputDir (settings : WorkerSettings) (job : Job) : String :=
  s!"{settings.workdir}/{job.id}/output"

namespace DatasetFetcher

/-- Where `fetch_for_job` puts the dataset of a job. -/
def inputDir (settings : WorkerSettings) (job : Job) : String :=
  match job.sourceType with
  | .hfHub => DiskManager.finalPathFor settings.hfCacheDir job.sourceRef
  | .zipUpload => s!"{settings.workdir}/{job.id}/input"

/-- The dataset that a fetch comes to, if it comes to one. -/
def datasetOf (settings : WorkerSettings) (job : Job) : FetchedDataset where
  inputDir := inputDir settings job
  readOnly := job.sourceType = .hfHub

end DatasetFetcher

end TrainVla
