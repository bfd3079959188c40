import TrainVla.Worker.DiskManager

/-! Making the training data of a job available on the local disk. -/
namespace TrainVla.DatasetFetcher

open Interaction DiskManager

structure FetchedDataset where
  inputDir : String
  readOnly : Bool

def fetchHfDataset (settings : WorkerSettings) (repoId : String) : Service String := do
  let finalDir := finalPathFor settings.hfCacheDir repoId
  let hit ← Prog.ofExcept (← perform (.cacheExists (finalNameFor repoId)))
  if hit then do
    Prog.ofExcept (← perform (.cacheTouch (finalNameFor repoId)))
    pure finalDir
  else do
    Prog.ofExcept (← perform .cacheMkdir)
    match ← perform (.hubDownloadDataset repoId (tmpNameFor repoId)) with
    | .error (.fileNotFound _) => .raise (.datasetFetch s!"HF Hub dataset not found: {repoId}")
    | .error e => .raise e
    | .ok () =>
      finalizeDownload (tmpNameFor repoId) (finalNameFor repoId)
      let _ ← evictLruUntilUnderCap settings.hfCacheMaxBytes
      pure finalDir

/-- Open the archive and extract it. -/
def openAndExtract (lib : Library) (jobId objectPath : String) : Service Unit := do
  let data ← Prog.ofExcept (← perform (.storageOpenReadStream .extraction objectPath))
  let _ ← Prog.ofExcept (lib.zipInfolist data)
  Prog.ofExcept (← perform (.extractAll jobId data))

def extractZipUpload (lib : Library) (jobId objectPath targetDir : String) : Service String := do
  Prog.ofExcept (← perform (.makeJobDir jobId))
  match ← Prog.attempt (openAndExtract lib jobId objectPath) with
  | .error (.fileNotFound m) =>
    .raise (.datasetFetch s!"Failed to extract uploaded dataset {objectPath}: {m}")
  | .error (.badZipFile m) =>
    .raise (.datasetFetch s!"Failed to extract uploaded dataset {objectPath}: {m}")
  | .error e => .raise e
  | .ok () =>
    perform (.storageDelete objectPath)
    pure targetDir

def fetchForJob (lib : Library) (settings : WorkerSettings) (job : Job) (jobDir : String) :
    Service FetchedDataset :=
  match job.sourceType with
  | .hfHub => do
    let inputDir ← fetchHfDataset settings job.sourceRef
    pure { inputDir, readOnly := true }
  | .zipUpload => do
    let inputDir ← extractZipUpload lib job.id job.sourceRef s!"{jobDir}/input"
    pure { inputDir, readOnly := false }

end TrainVla.DatasetFetcher
