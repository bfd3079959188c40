import TrainVla.Backend.Tokens
import TrainVla.Backend.UploadService
import TrainVla.Backend.AuthService
import TrainVla.Backend.TimeoutService

/-! The endpoints, and how exceptions become status codes. -/
namespace TrainVla

open Interaction

/-- What the interface uses besides the services: `jwt`, and what `pydantic` makes of the progress
that a container has reported. -/
structure ApiLibrary where
  jwt : Jwt
  progressOut : Progress → Except Exc Progress

structure TokenOut where
  accessToken : String
  tokenType : String := "bearer"

structure JobOut where
  id : String
  policy : PolicyType
  sourceType : SourceType
  trainingSteps : ℤ
  status : String
  queuePosition : Option ℕ
  progress : Option Progress
  errorMessage : Option String
  createdAt : ℤ

namespace Api

variable (lib : ApiLibrary) (settings : BackendSettings)

def fromView (view : JobService.JobView) : Except Exc JobOut := do
  let job := view.job
  let progress ← job.progress.mapM lib.progressOut
  pure { id := job.id, policy := job.policy, sourceType := job.sourceType
         trainingSteps := job.trainingSteps, status := view.displayStatus
         queuePosition := view.queuePosition, progress, errorMessage := job.errorMessage
         createdAt := job.createdAt }

/-- `next(v for v in views if v.job.id == job_id)`. -/
def firstView (views : List JobService.JobView) (jobId : String) : Except Exc JobService.JobView :=
  match views.find? fun view => view.job.id = jobId with
  | some view => .ok view
  | none => .error (.other "StopIteration" "")

def tokenFor (userId : String) : Service TokenOut := do
  let accessToken ← JwtTokens.createAccessToken lib.jwt userId settings.jwtSecret
  pure { accessToken }

def register (services : Library) (email password captchaToken : String) : Service TokenOut := do
  let user ← AuthService.registerWithEmail services email password captchaToken
  tokenFor lib settings user.id

def login (services : Library) (email password : String) : Service TokenOut := do
  let user ← AuthService.loginWithEmail services email password
  tokenFor lib settings user.id

def hfOauthCallback (code redirectUri : String) : Service TokenOut := do
  let user ← AuthService.loginOrRegisterWithHf code redirectUri
  tokenFor lib settings user.id

def changePassword (services : Library) (userId oldPassword newPassword : String) :
    Service Unit := do
  let _ ← AuthService.changePassword services userId oldPassword newPassword
  pure ()

def listMyJobs (userId : String) : Service (List JobOut) := do
  let views ← JobService.listJobsForUser userId
  Prog.ofExcept (views.mapM (fromView lib))

/-- `_job_out_for`, which `cancel_job` repeats. -/
def jobOutFor (userId jobId : String) : Service JobOut := do
  let views ← JobService.listJobsForUser userId
  let view ← Prog.ofExcept (firstView views jobId)
  Prog.ofExcept (fromView lib view)

def cancelJob (userId jobId : String) : Service JobOut := do
  let job ← JobService.requestCancel userId jobId
  jobOutFor lib userId job.id

def createZipUploadTarget (userId : String) : Service (String × String) :=
  UploadService.createUploadTarget userId none

/-- `Field(gt=0, le=MAX_TRAINING_STEPS)`. -/
def checkTrainingSteps (trainingSteps : ℤ) : Except Exc Unit :=
  if 0 < trainingSteps ∧ trainingSteps ≤ maxTrainingSteps then .ok ()
  else .error (.other "RequestValidationError" "training_steps")

def confirmZipUpload (services : Library) (limits : ValidationLimits) (userId uploadId : String)
    (policy : PolicyType) (trainingSteps : ℤ) : Service JobOut := do
  Prog.ofExcept (checkTrainingSteps trainingSteps)
  let job ← UploadService.confirmZipUpload services limits userId uploadId policy trainingSteps
  jobOutFor lib userId job.id

def submitHfDataset (services : Library) (userId repoId : String) (policy : PolicyType)
    (trainingSteps : ℤ) : Service JobOut := do
  Prog.ofExcept (checkTrainingSteps trainingSteps)
  let job ← UploadService.submitHfDataset services userId repoId policy trainingSteps
  jobOutFor lib userId job.id

/-- `POST /internal/check-timeouts`. -/
def checkTimeouts (xSchedulerSecret : Option String) : Service (List String) := do
  verifySchedulerSecret settings xSchedulerSecret
  let failedJobs ← TimeoutService.checkAndFailTimedOutJobs
  pure (failedJobs.map Job.id)

/-- An endpoint that depends on `get_current_user_id`. -/
def authenticated {α : Type} (authorization : Option String) (endpoint : String → Service α) :
    Service α := do
  let userId ← getCurrentUserId lib.jwt settings authorization
  endpoint userId

end Api

end TrainVla
