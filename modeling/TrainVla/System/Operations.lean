import TrainVla.Backend.UploadService
import TrainVla.Backend.TimeoutService
import TrainVla.Backend.AuthService
import TrainVla.Worker.JobPoller
import TrainVla.Worker.JobCompletion
import TrainVla.Worker.OrphanReconciler
import TrainVla.Interaction.Windows

/-! The whole system: requests to the backend, the sweep of the scheduler, and the single
thread of the worker. -/
namespace TrainVla

open Interaction

inductive Op
  | createJob (userId : String) (policy : PolicyType) (sourceType : SourceType)
      (sourceRef : String) (trainingSteps : ℤ)
  | createUploadTarget (userId : String) (uploadId : Option String)
  | confirmZipUpload (userId uploadId : String) (policy : PolicyType) (trainingSteps : ℤ)
  | submitHfDataset (userId repoId : String) (policy : PolicyType) (trainingSteps : ℤ)
  | listJobs (userId : String)
  | requestCancel (userId jobId : String)
  | getDownloadUrl (userId jobId : String)
  | registerWithEmail (email password captchaToken : String)
  | loginWithEmail (email password : String)
  | changePassword (userId oldPassword newPassword : String)
  | loginOrRegisterWithHf (code redirectUri : String)
  | timeoutSweep
  | reconcile
  | pollerTick
  | completionTick

/-- What an installation fixes. `steady` says that all parties read one clock, which never
goes back. -/
structure Deployment where
  lib : Library
  limits : ValidationLimits := defaultLimits
  settings : WorkerSettings := {}
  steady : Bool := false

namespace Op

/-- The operations of the worker run on its one thread. -/
def threaded : Op → Bool
  | reconcile | pollerTick | completionTick => true
  | _ => false

/-- A bare `create_job`, which no request reaches without a submission around it. -/
def direct : Op → Bool
  | createJob .. => true
  | _ => false

theorem direct_of_threaded {op : Op} (h : op.threaded = true) : op.direct = false := by
  cases op <;> first | rfl | cases h

/-- The requests that submit a job. -/
def submits : Op → Bool
  | createJob .. | confirmZipUpload .. | submitHfDataset .. => true
  | _ => false

theorem not_threaded_of_submits {op : Op} (h : op.submits = true) : op.threaded = false := by
  cases op <;> first | rfl | cases h

/-- The authenticated user of a request. -/
def caller : Op → Option String
  | createJob userId .. | createUploadTarget userId _ | confirmZipUpload userId .. => some userId
  | submitHfDataset userId .. | listJobs userId | requestCancel userId _ => some userId
  | getDownloadUrl userId _ | changePassword userId .. => some userId
  | _ => none

theorem caller_of_threaded {op : Op} (h : op.threaded = true) : op.caller = none := by
  cases op <;> first | rfl | cases h

def code (D : Deployment) : Op → Service Unit
  | createJob userId policy sourceType sourceRef trainingSteps =>
    (JobService.createJob userId policy sourceType sourceRef trainingSteps).discard
  | createUploadTarget userId uploadId => (UploadService.createUploadTarget userId uploadId).discard
  | confirmZipUpload userId uploadId policy trainingSteps =>
    (UploadService.confirmZipUpload D.lib D.limits userId uploadId policy trainingSteps).discard
  | submitHfDataset userId repoId policy trainingSteps =>
    (UploadService.submitHfDataset D.lib userId repoId policy trainingSteps).discard
  | listJobs userId => (JobService.listJobsForUser userId).discard
  | requestCancel userId jobId => (JobService.requestCancel userId jobId).discard
  | getDownloadUrl userId jobId => (JobService.getDownloadUrl userId jobId).discard
  | registerWithEmail email password captchaToken =>
    (AuthService.registerWithEmail D.lib email password captchaToken).discard
  | loginWithEmail email password => (AuthService.loginWithEmail D.lib email password).discard
  | changePassword userId oldPassword newPassword =>
    (AuthService.changePassword D.lib userId oldPassword newPassword).discard
  | loginOrRegisterWithHf code redirectUri =>
    (AuthService.loginOrRegisterWithHf code redirectUri).discard
  | timeoutSweep => TimeoutService.checkAndFailTimedOutJobs.discard
  | reconcile => OrphanReconciler.reconcile.discard
  | pollerTick => (JobPoller.tick D.lib D.settings).discard
  | completionTick => (JobCompletion.tick D.lib D.settings).discard

end Op

abbrev System := Machine Op Call Call.Resp Exc World Choice Event

abbrev SysConf := Conf Op Call Call.Resp Exc World

abbrev SysLabel := Label Op Choice Event

abbrev SysRecord := Record Op Call World

def Deployment.system (D : Deployment) : System where
  exec := World.exec D.steady
  occur := World.occur
  code := Op.code D
  threaded := Op.threaded

/-- An installation to evaluate runs on, in which no archive and no JSON text is well formed. -/
def Deployment.sample : Deployment where
  lib :=
    { zipInfolist := fun _ => .error (.badZipFile "File is not a zip file")
      zipRead := fun _ name => .error (.key name)
      jsonLoads := fun _ => .error (.jsonDecode "Expecting value: line 1 column 1 (char 0)")
      fromIsoformat := fun _ => none
      hashpw := fun _ salt => salt
      checkpw := fun _ _ => false }

/-- Another one, in which the first byte of an archive says how big its data file is and the rest
is its `info.json`. The empty text describes a camera, the next one is an array, and the one
after that describes the state of an environment. -/
def Deployment.camera : Deployment where
  lib :=
    { Deployment.sample.lib with
      zipInfolist := fun
        | [] => .error (.badZipFile "File is not a zip file")
        | size :: _ => .ok [⟨requiredMetaFile, 2⟩, ⟨"data/chunk", 2 ^ size.toNat⟩]
      zipRead := fun data _ => .ok data.tail
      jsonLoads := fun
        | [] => .ok (.obj [("features", .obj [("observation.state", .null), ("action", .null),
            ("observation.image", .null)])])
        | [0] => .ok (.arr [])
        | [1] => .ok (.obj [("features", .obj [("observation.state", .null), ("action", .null),
            (envStateFeature, .null)])])
        | _ => .error (.jsonDecode "Expecting value: line 1 column 1 (char 0)") }

/-- All parties of this one read the same clock. -/
def Deployment.oneClock : Deployment := { Deployment.sample with steady := true }

/-- A world with one user, and a dataset that was downloaded before. -/
def World.sample : World where
  users := Store.Table.empty.put { id := "user", authProvider := .email, createdAt := 0 }
  cache := Store.Table.empty.put { name := "org__dataset" }

def Run.create (jobId : String) : List SysLabel :=
  .spawn (.createJob "user" .act .hfHub "org/dataset" 100) ::
    List.replicate 6 (.serve 0 { text := jobId })

/-- Schedules at the granularity of single calls. -/
def Interleaved : SysLabel → Prop
  | .whole _ _ => False
  | .cut _ _ => False
  | _ => True

instance : DecidablePred Interleaved
  | .whole _ _ | .cut _ _ => isFalse id
  | .spawn _ | .serve _ _ | .start _ | .work _ | .crash | .event _ => isTrue trivial

theorem Interleaved.single {l : SysLabel} (h : Interleaved l) : l.Single := by
  cases l with
  | whole op xs => exact h.elim
  | cut op xs => exact h.elim
  | _ => trivial

/-- Schedules at the granularity of single calls, in which every job is submitted by a request. -/
def Submitted : SysLabel → Prop
  | .spawn op => op.direct = false
  | .whole _ _ => False
  | .cut _ _ => False
  | _ => True

instance : DecidablePred Submitted
  | .spawn op => inferInstanceAs (Decidable (op.direct = false))
  | .whole _ _ | .cut _ _ => isFalse id
  | .serve _ _ | .start _ | .work _ | .crash | .event _ => isTrue trivial

/-- Schedules of whole operations, in which every job is submitted by a request. The identifiers
of users are such as `uuid4` makes, without slashes. -/
def SubmittedWhole : SysLabel → Prop
  | .whole op _ => op.direct = false ∧ ∀ userId ∈ op.caller, '/' ∉ userId.toList
  | .event _ => True
  | _ => False

theorem SubmittedWhole.uninterrupted {l : SysLabel} (h : SubmittedWhole l) : l.Uninterrupted := by
  cases l with
  | whole op xs => trivial
  | event v => trivial
  | _ => exact h.elim

/-- The operations that others may interrupt in schedules with atomic completion ticks. -/
def Op.interrupted : Op → Bool
  | reconcile | pollerTick => true
  | _ => false

theorem Op.interrupted_of_threaded {op : Op} (h : op.threaded = false) : op.interrupted = false := by
  cases op <;> first | rfl | cases h

/-- Requests, sweeps and completion ticks are atomic; requests and sweeps fall between any two
other calls of the worker. Whatever the worker is at may crash. -/
def MonitorAtomic : SysLabel → Prop
  | .start op => op.interrupted = true
  | .work _ => True
  | .crash => True
  | .whole op _ => op.interrupted = false
  | .cut op _ => op.interrupted = false
  | .event _ => True
  | _ => False

/-- Requests and sweeps are atomic but fall between any two calls of the worker, which may
crash. -/
def WorkerInterleaved : SysLabel → Prop
  | .start _ => True
  | .work _ => True
  | .crash => True
  | .whole op _ => op.threaded = false
  | .event _ => True
  | _ => False

end TrainVla
