import TrainVla.System.Operations
import TrainVla.Interaction.Soundness

/-! What the operations do, call by call: every way in which a job document is rewritten,
and what an operation has learnt when it does so. An invariant of the system is proved
from this alone; no proof looks into the programs again. -/
namespace TrainVla

open Interaction

/-- How an operation has come by a job document that it holds. -/
inductive Stage
  /-- returned by the repository, or written by the operation itself -/
  | read
  /-- its container was killed -/
  | dead
  /-- first in the queue, when no job was running -/
  | next
  /-- and its owner was looked up -/
  | owned (user : User)
  /-- moved to `initializing` -/
  | started (user : User)
  /-- its owner was charged -/
  | charged
  /-- its container was started -/
  | launched (containerId : String)
  /-- its container could not be started -/
  | refused
  /-- its progress file was read -/
  | sawProgress (progress : Option Progress)
  /-- and its exit code was asked for -/
  | polled (progress : Option Progress) (exitCode : Option ℤ)

/-- In the other stages something is under way that only the next write settles: a start
that is not charged yet, a container that no document names yet. -/
def Stage.Settled : Stage → Prop
  | started _ => False
  | launched _ => False
  | _ => True

/-- The rewrites of a job document at an instant: by which operation, from which stage to
which. -/
inductive JobWrite : Op → Stage → Job → ℤ → Stage → Job → Prop
  | requestCancel {userId jobId : String} {job : Job} {now : ℤ} (hactive : job.status.Active)
      (howner : job.userId = userId) :
    JobWrite (.requestCancel userId jobId) .read job now .read
      { job with cancelRequested := true, updatedAt := now }
  | timeOut {job : Job} {now : ℤ} (htimeout : isTimedOut job.status job.heartbeatAt now = true) :
    JobWrite .timeoutSweep .read job now .read
      { job with
        status := .failed
        updatedAt := now
        errorMessage := some TimeoutService.timeoutErrorMessage }
  | cancelUnstarted {job : Job} {now : ℤ} (hrequested : job.cancelRequested = true)
      (hactive : job.status.Active) (hcontainer : job.status = .queued ∨ job.container? = none) :
    JobWrite .pollerTick .read job now .read { job with status := .cancelled, updatedAt := now }
  | cancelKilled {job : Job} {now : ℤ} (hrequested : job.cancelRequested = true)
      (hactive : job.status.Active) :
    JobWrite .pollerTick .dead job now .read { job with status := .cancelled, updatedAt := now }
  | start {job : Job} {user : User} {now : ℤ} (hstatus : job.status = .queued) :
    JobWrite .pollerTick (.owned user) job now (.started user)
      { job with status := .initializing, updatedAt := now, heartbeatAt := some now }
  | failUnfetched {job : Job} {now : ℤ} {message : String} (hstatus : job.status = .initializing) :
    JobWrite .pollerTick .charged job now .read
      { job with status := .failed, updatedAt := now, errorMessage := some message }
  | failRefused {job : Job} {now : ℤ} {message : String} (hstatus : job.status = .initializing) :
    JobWrite .pollerTick .refused job now .read
      { job with status := .failed, updatedAt := now, errorMessage := some message }
  | recordContainer {job : Job} {containerId : String} {now : ℤ}
      (hstatus : job.status = .initializing) :
    JobWrite .pollerTick (.launched containerId) job now .read
      { job with containerId := some containerId }
  | enterTraining {job : Job} {progress : Option Progress} {exitCode : Option ℤ} {now : ℤ}
      (hstatus : job.status = .initializing) (hreason : progress ≠ none ∨ exitCode ≠ none) :
    JobWrite .completionTick (.polled progress exitCode) job now (.polled progress exitCode)
      { job with status := .training, updatedAt := now }
  | recordProgress {job : Job} {progress : Progress} {exitCode : Option ℤ} {now : ℤ}
      (hstatus : job.status = .training) :
    JobWrite .completionTick (.polled (some progress) exitCode) job now
      (.polled (some progress) exitCode)
      { job with progress := some progress, heartbeatAt := some now }
  | markAlive {job : Job} {now : ℤ} (hstatus : job.status = .initializing) :
    JobWrite .completionTick (.polled none none) job now (.polled none none)
      { job with heartbeatAt := some now }
  | complete {job : Job} {progress : Option Progress} {now : ℤ} (hstatus : job.status = .training) :
    JobWrite .completionTick (.polled progress (some 0)) job now .read
      { job with
        status := .completed
        updatedAt := now
        checkpointGcsPath := some (JobCompletion.checkpointPath job.id) }
  | fail {job : Job} {progress : Option Progress} {exitCode now : ℤ} {message : String}
      (hstatus : job.status = .training) :
    JobWrite .completionTick (.polled progress (some exitCode)) job now .read
      { job with status := .failed, updatedAt := now, errorMessage := some message }

/-- The documents that sign-ups store. -/
inductive NewUser : Op → User → Prop
  | email {email password captchaToken id passwordHash : String} {createdAt : ℤ} :
    NewUser (.registerWithEmail email password captchaToken)
      { id, authProvider := .email, email := some email, passwordHash := some passwordHash
        createdAt }
  | huggingface {code redirectUri id hfUserId : String} {email : Option String} {createdAt : ℤ} :
    NewUser (.loginOrRegisterWithHf code redirectUri)
      { id, authProvider := .huggingface, email, hfUserId := some hfUserId, createdAt }

/-- What an operation has learnt from the answers it got. -/
inductive Fact
  /-- nothing unsettled is under way -/
  | calm
  /-- the last reading of the clock -/
  | time (now : ℤ)
  | job (stage : Stage) (job : Job)
  /-- no job was initializing or training -/
  | free
  | owner (user : User)
  /-- the jobs of a user whose document was read before -/
  | slots (user : User) (jobs : List Job)
  /-- and the day of the quota check -/
  | dated (user : User) (jobs : List Job) (today : ℤ)
  /-- and the creation time of the new job -/
  | stamped (user : User) (jobs : List Job) (today now : ℤ)
  /-- the archive that a confirmation listed -/
  | listed (objectPath : String) (data : Bytes)
  /-- the archive that was opened to be extracted -/
  | extracting (objectPath : String) (data : Bytes)
  /-- a checkpoint of the job is stored -/
  | uploaded (jobId : String)
  /-- the job has no directory -/
  | cleared (jobId : String)

/-- What an answer teaches an operation that knew `known` before. -/
inductive Learns (D : Deployment) : Op → List Fact → (c : Call) → c.Resp → Fact → Prop
  | time {op : Op} {now : ℤ} : Learns D op [] .now now (.time now)
  | got {op : Op} {jobId : String} {job : Job} :
    Learns D op [] (.jobsGet jobId) (some job) (.job .read job)
  | found {op : Op} {statuses : List JobStatus} {jobs : List Job} {job : Job} (h : job ∈ jobs) :
    Learns D op [] (.jobsListByStatuses statuses) jobs (.job .read job)
  | free {op : Op} : Learns D op [] (.jobsListByStatuses JobPoller.activeContainerStatuses) [] .free
  | next {job : Job} {jobs : List Job} :
    Learns D .pollerTick [.free] (.jobsListByStatuses [.queued]) (job :: jobs) (.job .next job)
  | owned {job : Job} {user : User} :
    Learns D .pollerTick [.job .next job] (.usersGet job.userId) (some user) (.job (.owned user) job)
  | owner {op : Op} {userId : String} {user : User} :
    Learns D op [] (.usersGet userId) (some user) (.owner user)
  | slots {op : Op} {user : User} {jobs : List Job} :
    Learns D op [.owner user] (.jobsListForUser user.id) jobs (.slots user jobs)
  | dated {op : Op} {user : User} {jobs : List Job} {today : ℤ} :
    Learns D op [.slots user jobs] .now today (.dated user jobs today)
  | stamped {op : Op} {user : User} {jobs : List Job} {today now : ℤ} :
    Learns D op [.dated user jobs today] .now now (.stamped user jobs today now)
  | listed {op : Op} {objectPath : String} {data : Bytes} :
    Learns D op [] (.storageOpenReadStream .listing objectPath) (.ok data) (.listed objectPath data)
  | wrote {op : Op} {fs : List Fact} {st st' : Stage} {seen new : Job} {now : ℤ}
      (h : JobWrite op st seen now st' new) (hjob : .job st seen ∈ fs) (htime : .time now ∈ fs)
      (hcalm : st.Settled → .calm ∈ fs) :
    Learns D op fs (.jobsUpdate seen new) () (.job st' new)
  | calmWrote {op : Op} {fs : List Fact} {st st' : Stage} {seen new : Job} {now : ℤ}
      (h : JobWrite op st seen now st' new) (hjob : .job st seen ∈ fs) (htime : .time now ∈ fs)
      (hcalm : st.Settled → .calm ∈ fs) (hst : st'.Settled) :
    Learns D op fs (.jobsUpdate seen new) () .calm
  | charged {job : Job} {user user' : User} :
    Learns D .pollerTick [.job (.started user) job] (.usersUpdate (some job.id) user user') ()
      (.job .charged job)
  | calmCharged {job : Job} {user user' : User} :
    Learns D .pollerTick [.job (.started user) job] (.usersUpdate (some job.id) user user') () .calm
  | launched {job : Job} {spec : ContainerSpec} {containerId : String}
      (h : spec.jobId? = some job.id) :
    Learns D .pollerTick [.job .charged job] (.dockerRun spec) (.ok containerId)
      (.job (.launched containerId) job)
  | refused {job : Job} {spec : ContainerSpec} {e : Exc} (h : spec.jobId? = some job.id) :
    Learns D .pollerTick [.job .charged job] (.dockerRun spec) (.error e) (.job .refused job)
  | calmRefused {spec : ContainerSpec} {e : Exc} :
    Learns D .pollerTick [.calm] (.dockerRun spec) (.error e) .calm
  | killed {job : Job} {containerId : String} (h : job.container? = some containerId) :
    Learns D .pollerTick [.job .read job] (.dockerKill containerId) (.ok ()) (.job .dead job)
  | sawProgress {job : Job} {file : Option ProgressFile}
      {progress : Option Progress} (h : ProgressReader.readProgress D.lib file = .ok progress) :
    Learns D .completionTick [.job .read job] (.readProgressFile job.id) file
      (.job (.sawProgress progress) job)
  | sawNoContainer {job : Job} {file : Option ProgressFile}
      {progress : Option Progress} (h : ProgressReader.readProgress D.lib file = .ok progress)
      (hcontainer : job.container? = none) :
    Learns D .completionTick [.job .read job] (.readProgressFile job.id) file
      (.job (.polled progress none) job)
  | polled {job : Job} {progress : Option Progress} {containerId : String} {exitCode : Option ℤ}
      (h : job.container? = some containerId) :
    Learns D .completionTick [.job (.sawProgress progress) job] (.dockerGetExitCode containerId)
      exitCode (.job (.polled progress exitCode) job)

  | extracting {op : Op} {objectPath : String} {data : Bytes} :
    Learns D op [] (.storageOpenReadStream .extraction objectPath) (.ok data)
      (.extracting objectPath data)
  | uploaded {op : Op} {jobId : String} :
    Learns D op [] (.storageUploadFile (JobCompletion.checkpointPath jobId) jobId) (.ok ())
      (.uploaded jobId)
  | cleared {op : Op} {jobId : String} : Learns D op [] (.removeJobDir jobId) () (.cleared jobId)

/-- What an operation knew before a call and may rely on after it. -/
def Survives : Call → Fact → Prop
  | .now, .time _ => False
  | .now, .stamped .. => False
  | .jobsUpdate _ new, .job .read job => job.id ≠ new.id
  | .jobsUpdate _ _, .job _ _ => False
  | .jobsUpdate _ _, .calm => False
  | .usersUpdate (some _) _ _, .job _ _ => False
  | .usersUpdate (some _) _ _, .calm => False
  | .dockerRun _, .job _ _ => False
  | .dockerRun _, .calm => False
  | .dockerKill _, .job .read _ => True
  | .dockerKill _, .job _ _ => False
  | .removeJobDir _, .job .read _ => True
  | .removeJobDir _, .job .dead _ => True
  | .removeJobDir _, .job _ _ => False
  | .storageDelete _, .listed .. => False
  | .storageUploadFile .., .listed .. => False
  | .makeJobDir _, .cleared _ => False
  | .jobsCreate _, f | .jobsUpdate _ _, f | .usersUpdate _ _ _, f | .usersCreate _, f
  | .dockerRun _, f | .dockerKill _, f | .removeJobDir _, f => f = .calm ∨ ∃ t, f = .time t
  | _, _ => True

/-- Both checks of the entries of an archive. -/
def Passes (D : Deployment) (data : Bytes) : Prop :=
  ∃ entries, D.lib.zipInfolist data = .ok entries ∧
    (checkLerobotStructure (entries.map ZipEntryMeta.name)).ok = true ∧
    (checkDecompressionBomb entries D.limits).ok = true

/-- The document that `create_job` stores. -/
structure NewJob (user : User) (jobs : List Job) (today now : ℤ) (job : Job) : Prop where
  steps : (validateTrainingSteps job.trainingSteps).ok = true
  allowed : (canCreateJob user jobs (dateOf today)).allowed = true
  eq : job =
    { id := job.id, userId := job.userId, policy := job.policy, sourceType := job.sourceType
      sourceRef := job.sourceRef, trainingSteps := job.trainingSteps
      status := .queued, createdAt := now, updatedAt := now }

/-- The assertions of one proof: an invariant, what the others may do while an operation is
in flight, the calls that are considered, and what a fact says about the world. -/
structure Protocol where
  inv : World → Prop
  rely : Op → World → World → Prop
  cond : Op → World → Call → Prop
  holds : Op → Fact → World → Prop

namespace Protocol

variable (P : Protocol) (D : Deployment)

/-- What has been done for a job before its document is written. -/
def Prepared (op : Op) (w : World) (st : Stage) (new : Job) : Prop :=
  (st = .dead → P.holds op (.cleared new.id) w) ∧
    (new.status = .completed → P.holds op (.uploaded new.id) w)

/-- What is known when a call is performed. -/
def pre (op : Op) (w : World) : Call → Prop
  | .jobsUpdate seen job => ∃ st now st', JobWrite op st seen now st' job ∧
      P.holds op (.job st seen) w ∧ P.holds op (.time now) w ∧ (st.Settled → P.holds op .calm w) ∧
      P.Prepared op w st job
  | .jobsCreate job => op.submits = true ∧ ∃ user jobs today now,
      NewJob user jobs today now job ∧ P.holds op (.stamped user jobs today now) w ∧
      user.id = job.userId ∧ P.holds op .calm w ∧
      (op.direct = false → job.sourceType = .zipUpload →
        ∃ data, P.holds op (.listed job.sourceRef data) w ∧ Passes D data) ∧
      op.caller = some job.userId ∧
      (op.direct = false → job.sourceType = .zipUpload → ∃ uploadId policy trainingSteps,
        op = .confirmZipUpload job.userId uploadId policy trainingSteps ∧
        job.sourceRef = UploadService.objectPath job.userId uploadId)
  | .usersUpdate (some jobId) seen user => op = .pollerTick ∧ ∃ job now,
      P.holds op (.job (.started seen) job) w ∧ jobId = job.id ∧
      job.heartbeatAt = some now ∧ user = recordJobStarted seen (dateOf now)
  | .usersUpdate none seen user => (∃ userId oldPassword newPassword,
        op = .changePassword userId oldPassword newPassword) ∧ ∃ passwordHash,
      P.holds op (.owner seen) w ∧ user = { seen with passwordHash := some passwordHash }
  | .usersCreate user => NewUser op user
  | .dockerRun spec => op = .pollerTick ∧ ∃ job, P.holds op (.job .charged job) w ∧
      spec.jobId? = some job.id
  | .dockerKill _ => op.threaded = true
  | .makeJobDir jobId => op = .pollerTick ∧ ∃ job, P.holds op (.job .charged job) w ∧
      jobId = job.id
  | .extractAll jobId data => op = .pollerTick ∧ ∃ job, P.holds op (.job .charged job) w ∧
      jobId = job.id ∧ P.holds op (.extracting job.sourceRef data) w
  | .storageOpenReadStream .extraction objectPath => op = .pollerTick ∧ ∃ job,
      P.holds op (.job .charged job) w ∧ job.sourceType = .zipUpload ∧ job.sourceRef = objectPath
  | .storageOpenReadStream _ objectPath => ∃ userId uploadId policy trainingSteps,
      op = .confirmZipUpload userId uploadId policy trainingSteps ∧
      objectPath = UploadService.objectPath userId uploadId
  | .storageExists objectPath => ∃ userId uploadId policy trainingSteps,
      op = .confirmZipUpload userId uploadId policy trainingSteps ∧
      objectPath = UploadService.objectPath userId uploadId
  | .storageDelete objectPath =>
      (∃ userId uploadId policy trainingSteps,
        op = .confirmZipUpload userId uploadId policy trainingSteps ∧
        objectPath = UploadService.objectPath userId uploadId) ∨
      op = .pollerTick ∧ ∃ job, P.holds op (.job .charged job) w ∧ job.sourceType = .zipUpload ∧
        job.sourceRef = objectPath
  | .storageUploadFile objectPath jobId => op = .completionTick ∧
      objectPath = JobCompletion.checkpointPath jobId ∧ ∃ job progress,
        P.holds op (.job (.polled progress (some 0)) job) w ∧ job.status = .training ∧
        job.id = jobId
  | .storageGenerateUploadUrl objectPath _ _ => ∃ userId given uploadId,
      op = .createUploadTarget userId given ∧
      objectPath = UploadService.objectPath userId uploadId
  | .storageGenerateDownloadUrl objectPath _ => ∃ userId jobId job,
      op = .getDownloadUrl userId jobId ∧ P.holds op (.job .read job) w ∧ job.userId = userId ∧
      job.id = jobId ∧ job.status = .completed ∧ job.checkpointGcsPath = some objectPath
  | _ => True

def outline : Outline Op Call World where
  inv := P.inv
  rely := P.rely
  pre := P.pre D
  cond := P.cond

end Protocol

end TrainVla
