import TrainVla.System.Provenance

/-! A job that is completed has its checkpoint in the object store, and download links lead to
the checkpoints of the caller. -/
namespace TrainVla

open Interaction Store JobCompletion UploadService

/-- The object at the checkpoint path of a job is an archive that was uploaded for that job. -/
def HasCheckpoint (w : World) (jobId : String) : Prop :=
  ∃ data, w.objects.get? (checkpointPath jobId) = some (checkpointPath jobId, data) ∧
    .uploaded (checkpointPath jobId) jobId data ∈ w.log

namespace Checkpoints

/-- What was uploaded stays, and the documents in the history have the owners of the stored
ones. -/
structure Kept (w : World) : Prop where
  targets : ∀ target ∈ w.uploadTargets, ∃ userId uploadId, target.1 = objectPath userId uploadId
  stored : ∀ jobId data, .uploaded (checkpointPath jobId) jobId data ∈ w.log → HasCheckpoint w jobId
  owners : ∀ time old new, .wrote time old new ∈ w.log →
    ∃ job, w.jobs.get? new.id = some job ∧ job.userId = new.userId

section

variable {D : Deployment} {steady : Bool} {o : Choice} {w w' : World} {op : Op} {c : Call}
  {r : c.Resp}

end

end Checkpoints

open Checkpoints

namespace Checkpoints

/-- An archive is uploaded and submitted, its job is trained, and the owner asks for the link. -/
def trained : List SysLabel :=
  [.spawn (.createUploadTarget "user" (some "up")), .serve 0 {},
    .event (.clientPut "uploads/user/up.zip" [0]),
    .spawn (.confirmZipUpload "user" "up" .act 100)] ++
  List.replicate 9 (.serve 1 { text := "j" }) ++
  .start .pollerTick :: List.replicate 14 (.work { text := "c" }) ++
  [.event (.containerExits "c" 0), .start .completionTick] ++ List.replicate 10 (.work {}) ++
  .spawn (.getDownloadUrl "user" "j") :: List.replicate 2 (.serve 2 {})

end Checkpoints

end TrainVla
