import TrainVla.Backend.Api
import TrainVla.Worker.Main
import TrainVla.System.Soundness
import TrainVla.Interaction.Renaming
import TrainVla.Interaction.Fleet

/-! The system as it is installed: requests reach the services through the endpoints, and the
worker runs in processes that share a lock file. -/
namespace TrainVla

open Interaction

/-- The requests to the interface, and what a worker process runs. -/
inductive Request
  | register (email password captchaToken : String)
  | login (email password : String)
  | hfOauthCallback (code redirectUri : String)
  | changePassword (authorization : Option String) (oldPassword newPassword : String)
  | createZipUploadTarget (authorization : Option String)
  | confirmZipUpload (authorization : Option String) (uploadId : String) (policy : PolicyType)
      (trainingSteps : ℤ)
  | submitHfDataset (authorization : Option String) (repoId : String) (policy : PolicyType)
      (trainingSteps : ℤ)
  | listMyJobs (authorization : Option String)
  | cancelJob (authorization : Option String) (jobId : String)
  | getDownloadUrl (authorization : Option String) (jobId : String)
  | checkTimeouts (xSchedulerSecret : Option String)
  | startup
  | pollerTick
  | completionTick

structure Installation where
  deployment : Deployment
  api : ApiLibrary
  backend : BackendSettings := {}

namespace Installation

variable (I : Installation)

/-- The user that the token of a request names, whether it has expired or not. -/
def claimed (authorization : Option String) : Option String :=
  (bearerToken authorization).bind fun token =>
    (I.api.jwt.payload token I.backend.jwtSecret).map Claims.sub

def claimedOr (authorization : Option String) : String := (I.claimed authorization).getD ""

end Installation

namespace Request

/-- The operation that a request comes down to. -/
def op (I : Installation) : Request → Op
  | register email password captchaToken => .registerWithEmail email password captchaToken
  | login email password => .loginWithEmail email password
  | hfOauthCallback code redirectUri => .loginOrRegisterWithHf code redirectUri
  | changePassword authorization oldPassword newPassword =>
    .changePassword (I.claimedOr authorization) oldPassword newPassword
  | createZipUploadTarget authorization => .createUploadTarget (I.claimedOr authorization) none
  | confirmZipUpload authorization uploadId policy trainingSteps =>
    .confirmZipUpload (I.claimedOr authorization) uploadId policy trainingSteps
  | submitHfDataset authorization repoId policy trainingSteps =>
    .submitHfDataset (I.claimedOr authorization) repoId policy trainingSteps
  | listMyJobs authorization => .listJobs (I.claimedOr authorization)
  | cancelJob authorization jobId => .requestCancel (I.claimedOr authorization) jobId
  | getDownloadUrl authorization jobId => .getDownloadUrl (I.claimedOr authorization) jobId
  | checkTimeouts _ => .timeoutSweep
  | startup => .reconcile
  | pollerTick => .pollerTick
  | completionTick => .completionTick

def threaded : Request → Bool
  | startup | pollerTick | completionTick => true
  | _ => false

/-- What `run_forever` and `tick` run after it. -/
def next : Request → Request
  | startup => pollerTick
  | pollerTick => completionTick
  | completionTick => pollerTick
  | r => r

def code (I : Installation) : Request → Service Unit
  | register email password captchaToken =>
    (Api.register I.api I.backend I.deployment.lib email password captchaToken).discard
  | login email password => (Api.login I.api I.backend I.deployment.lib email password).discard
  | hfOauthCallback code redirectUri =>
    (Api.hfOauthCallback I.api I.backend code redirectUri).discard
  | changePassword authorization oldPassword newPassword =>
    Api.authenticated I.api I.backend authorization fun userId =>
      Api.changePassword I.deployment.lib userId oldPassword newPassword
  | createZipUploadTarget authorization =>
    Api.authenticated I.api I.backend authorization fun userId =>
      (Api.createZipUploadTarget userId).discard
  | confirmZipUpload authorization uploadId policy trainingSteps =>
    Api.authenticated I.api I.backend authorization fun userId =>
      (Api.confirmZipUpload I.api I.deployment.lib I.deployment.limits userId uploadId policy
        trainingSteps).discard
  | submitHfDataset authorization repoId policy trainingSteps =>
    Api.authenticated I.api I.backend authorization fun userId =>
      (Api.submitHfDataset I.api I.deployment.lib userId repoId policy trainingSteps).discard
  | listMyJobs authorization =>
    Api.authenticated I.api I.backend authorization fun userId =>
      (Api.listMyJobs I.api userId).discard
  | cancelJob authorization jobId =>
    Api.authenticated I.api I.backend authorization fun userId =>
      (Api.cancelJob I.api userId jobId).discard
  | getDownloadUrl authorization jobId =>
    Api.authenticated I.api I.backend authorization fun userId =>
      (JobService.getDownloadUrl userId jobId).discard
  | checkTimeouts xSchedulerSecret => (Api.checkTimeouts I.backend xSchedulerSecret).discard
  | startup => (WorkerMain.startup I.deployment.settings).discard
  | pollerTick => (JobPoller.tick I.deployment.lib I.deployment.settings).discard
  | completionTick => (JobCompletion.tick I.deployment.lib I.deployment.settings).discard

theorem threaded_op (I : Installation) (r : Request) : (r.op I).threaded = r.threaded := by
  cases r <;> rfl

end Request

namespace Installation

abbrev ApiMachine := Machine Request Call Call.Resp Exc World Choice Event

/-- The requests and one worker. -/
def system (I : Installation) : ApiMachine where
  exec := World.exec I.deployment.steady
  occur := World.occur
  code := Request.code I
  threaded := Request.threaded

/-- The requests and any number of worker processes. -/
def fleet (I : Installation) : Fleet Request Call Call.Resp Exc WorkerLockError WorkerLock World
    Choice Event where
  machine := I.system
  enter := WorkerMain.enter
  leave := WorkerMain.leave
  descriptor := WorkerLock.fd
  first := .startup
  next := Request.next

theorem renames (I : Installation) : I.system.Renames I.deployment.system (Request.op I) where
  exec := rfl
  occur := rfl
  threaded r := (r.threaded_op I).symm

/-- An installation to evaluate runs on. A token is the identifier of its user, and tokens are those
of the first instant. -/
def sample : Installation where
  deployment := .sample
  api :=
    { jwt :=
        { encode := fun claims _ => claims.sub
          payload := fun token _ => some (JwtTokens.claimsFor token 0)
          verify := fun claims now =>
            if now < seconds claims.iat then .error "The token is not yet valid (iat)"
            else if seconds claims.exp ≤ now then .error "Signature has expired"
            else .ok () }
      progressOut := .ok }

/-- Another one, in which there are well-formed datasets. -/
def camera : Installation := { sample with deployment := .camera }

end Installation

end TrainVla
