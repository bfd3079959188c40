import TrainVla.World.Repositories
import TrainVla.World.Docker
import TrainVla.Common.Validation

/-! The calls that the backend and the worker make to what is outside of them, and the
world that answers. Every repository or storage method is one call. -/
namespace TrainVla

open Store

/-- What reading `progress.json` finds. `json.loads` refuses a value in which some integer has too
many digits, and does not get through a text that is nested too deep. -/
inductive ProgressFile
  | undecodable
  | malformed
  | tooDeep
  | longInteger (value : Json)
  | json (value : Json)

/-- The directory `<workdir>/<job id>` of a job, with the progress file in it. -/
structure JobDir where
  jobId : String
  progress : Option ProgressFile := none

/-- A file in the dataset cache, and the repository that it was downloaded from. -/
structure CachedFile where
  path : String
  repoId : String
  content : Bytes

/-- A child of the cache directory: a download, finished or not, or some plain file. -/
structure CacheChild where
  name : String
  isDir : Bool := true
  mtime : ℤ := 0
  files : Table CachedFile String CachedFile.path := Table.empty

/-- What the captcha service says about a token. -/
structure CaptchaResult where
  success : Bool
  score : ℚ

/-- The profile that the hub hands out for an authorization code. -/
structure HFOAuthUser where
  hfUserId : String
  username : String
  email : Option String := none

/-- Why an object is opened. Storage does not see this; the log keeps it. -/
inductive ReadPurpose
  | listing
  | member
  | extraction
  deriving DecidableEq

/-- The history of the world, which no program reads. -/
inductive Entry
  | wrote (time : ℤ) (old : Option Job) (new : Job)
  | charged (jobId userId : String)
  | ran (jobId : Option String)
  | opened (purpose : ReadPurpose) (objectPath : String) (data : Bytes)
  | stored (objectPath : String) (data : Bytes)
  | uploaded (objectPath jobId : String) (data : Bytes)
  | downloaded (repoId : String) (files : List (String × Bytes))

/-- `clock` is the last instant that anybody read, `log` the history, newest first. -/
structure World where
  clock : ℤ := 0
  jobs : JobTable := Table.empty
  users : UserTable := Table.empty
  objects : Table (String × Bytes) String Prod.fst := Table.empty
  uploadTargets : List (String × ℤ) := []
  repos : Table (String × List (String × Bytes)) String Prod.fst := Table.empty
  containers : Containers := Table.empty
  jobDirs : Table JobDir String JobDir.jobId := Table.empty
  cache : Table CacheChild String CacheChild.name := Table.empty
  log : List Entry := []

/-- The calls. The arguments `seen` (the document a write was computed from), `charge`
(the job a user is charged for) and `purpose` are labels that do not change the answer. -/
inductive Call
  | now
  | uuid4
  | jobsGet (jobId : String)
  | jobsCreate (job : Job)
  | jobsUpdate (seen job : Job)
  | jobsListForUser (userId : String)
  | jobsListByStatuses (statuses : List JobStatus)
  | usersGet (userId : String)
  | usersUpdate (charge : Option String) (seen user : User)
  | usersGetByEmail (email : String)
  | usersGetByHfUserId (hfUserId : String)
  | usersCreate (user : User)
  | captchaVerify (token : String)
  | hfExchangeCode (code redirectUri : String)
  | gensalt
  | storageExists (objectPath : String)
  | storageOpenReadStream (purpose : ReadPurpose) (objectPath : String)
  | storageDelete (objectPath : String)
  | storageUploadFile (objectPath jobId : String)
  | storageGenerateUploadUrl (objectPath contentType : String) (expiresInSeconds : ℤ)
  | storageGenerateDownloadUrl (objectPath : String) (expiresInSeconds : ℤ)
  | hubRepoExists (repoId : String)
  | hubListRepoFiles (repoId : String)
  | hubGetRepoFileBytes (repoId pathInRepo : String)
  | hubDownloadDataset (repoId dirName : String)
  | cacheExists (name : String)
  | cacheTouch (name : String)
  | cacheMkdir
  | cacheReplace (source target : String)
  | cacheIterdir
  | cacheRmtree (name : String)
  | dockerRun (spec : ContainerSpec)
  | dockerKill (containerId : String)
  | dockerGetExitCode (containerId : String)
  | dockerGetLogs (containerId : String)
  | dockerListRunningContainerIds
  | makeJobDir (jobId : String)
  | removeJobDir (jobId : String)
  | extractAll (jobId : String) (data : Bytes)
  | readProgressFile (jobId : String)
  | packageCheckpoint (jobId : String)

/-- A whole-document write, with the document it was computed from. -/
structure Rewrite where
  seen : Job
  new : Job

def Call.created? : Call → Option Job
  | jobsCreate job => some job
  | _ => none

def Call.rewrite? : Call → Option Rewrite
  | jobsUpdate seen job => some ⟨seen, job⟩
  | _ => none

/-- The answer to a call; a call that may raise answers with an `Except`. -/
@[reducible] def Call.Resp : Call → Type
  | now => ℤ
  | uuid4 | gensalt | storageGenerateUploadUrl .. | storageGenerateDownloadUrl .. => String
  | dockerGetLogs _ => String
  | jobsGet _ => Option Job
  | jobsListForUser _ | jobsListByStatuses _ => List Job
  | usersGet _ | usersGetByEmail _ | usersGetByHfUserId _ => Option User
  | captchaVerify _ => CaptchaResult
  | hfExchangeCode .. => Except Exc HFOAuthUser
  | storageExists _ | hubRepoExists _ => Bool
  | cacheExists _ => Except Exc Bool
  | storageOpenReadStream .. | hubGetRepoFileBytes .. => Except Exc Bytes
  | hubListRepoFiles _ => Except Exc (List String)
  | storageUploadFile .. | hubDownloadDataset .. => Except Exc Unit
  | cacheTouch _ | cacheMkdir | cacheReplace .. => Except Exc Unit
  | cacheIterdir => Except Exc (List CacheChild)
  | dockerRun _ => Except Exc String
  | dockerKill _ | makeJobDir _ | extractAll .. | packageCheckpoint _ => Except Exc Unit
  | dockerGetExitCode _ => Option ℤ
  | dockerListRunningContainerIds => List String
  | readProgressFile _ => Option ProgressFile
  | jobsCreate _ | jobsUpdate .. | usersUpdate .. | usersCreate _ | storageDelete _ => Unit
  | removeJobDir _ | cacheRmtree _ => Unit

/-- What the environment settles about a call: the clock reading, a text (an identifier,
a salt, a URL, a log), some content, the files that a download gets to, the names in the order in
which a directory is listed, what the captcha service and the hub answer, and whether the call
fails. -/
structure Choice where
  time : ℤ := 0
  text : String := ""
  data : Bytes := []
  paths : List String := []
  order : List String := []
  captcha : CaptchaResult := { success := true, score := 1 }
  profile : HFOAuthUser := { hfUserId := "", username := "" }
  fault : Option Exc := none

/-- A call whose failure is up to the environment. -/
def Choice.outcome {α : Type} (o : Choice) (a : α) : Except Exc α :=
  match o.fault with
  | some e => .error e
  | none => .ok a

namespace World

def record (w : World) (entry : Entry) : World := { w with log := entry :: w.log }

def writeJob (w : World) (job : Job) : World :=
  { w with jobs := w.jobs.put job, log := .wrote w.clock (w.jobs.get? job.id) job :: w.log }

def writeUser (w : World) (charge : Option String) (user : User) : World :=
  { w with
    users := w.users.put user
    log := (charge.map fun jobId => Entry.charged jobId user.id).toList ++ w.log }

def makeJobDir (w : World) (jobId : String) : World :=
  match w.jobDirs.get? jobId with
  | some _ => w
  | none => { w with jobDirs := w.jobDirs.put { jobId := jobId } }

def progressFile (w : World) (jobId : String) : Option ProgressFile :=
  (w.jobDirs.get? jobId).bind JobDir.progress

def storeObject (w : World) (objectPath : String) (data : Bytes) : World :=
  { w with objects := w.objects.put (objectPath, data), log := .stored objectPath data :: w.log }

/-- What the worker uploads for a job. -/
def uploadFile (w : World) (objectPath jobId : String) (data : Bytes) : World :=
  { w with
    objects := w.objects.put (objectPath, data)
    log := .uploaded objectPath jobId data :: w.log }

/-- A download into a child of the cache directory, which may be there already. -/
def download (w : World) (mtime : ℤ) (repoId dirName : String) (files : List (String × Bytes)) :
    World :=
  let child := (w.cache.get? dirName).getD { name := dirName }
  let written := files.foldl (fun kept file => kept.put ⟨file.1, repoId, file.2⟩) child.files
  { w with cache := w.cache.put { child with mtime := mtime, files := written } }

/-- A directory that was there before stays as it is. -/
def makeCacheDir (mtime : ℤ) (w : World) (name : String) : World :=
  match w.cache.get? name with
  | some _ => w
  | none => { w with cache := w.cache.put { name := name, mtime := mtime } }

/-- `DockerRunner.run` creates the mounted directories first, so they are there even when
the container does not start: the directory of the job, and the one of a dataset in the cache. -/
def prepareMounts (w : World) (mtime : ℤ) (spec : ContainerSpec) : World :=
  let prepared :=
    match spec.jobId? with
    | some jobId => w.makeJobDir jobId
    | none => w
  spec.cacheMounts.foldl (makeCacheDir mtime) prepared

/-- The children of the cache directory. No order of a listing is promised. -/
def listing (w : World) (order : List String) : List CacheChild :=
  w.cache.rows.insertionSort fun a b => order.idxOf a.name ≤ order.idxOf b.name

def runContainer (w : World) (spec : ContainerSpec) (containerId : String) : World :=
  { w with
    containers := w.containers.put { id := containerId, spec := spec, state := .running } }

def repoFiles (w : World) (repoId : String) : Except Exc (List (String × Bytes)) :=
  match w.repos.get? repoId with
  | some (_, files) => .ok files
  | none => .error (.fileNotFound repoId)

/-- The world's answer to a call. `steady` asks for a clock that never goes back. An
identifier that `create` or `run` is given must be new: neither is ever issued twice. A download
that fails has written the files that `paths` says, and so has one that is cut short. -/
def exec (steady : Bool) (o : Choice) (w : World) : (c : Call) → Option (c.Resp × World)
  | .now => if steady && decide (o.time < w.clock) then none
    else some (o.time, { w with clock := o.time })
  | .uuid4 => some (o.text, w)
  | .jobsGet jobId => some (w.jobs.get? jobId, w)
  | .jobsCreate job => if (w.jobs.get? job.id).isSome then none else some ((), w.writeJob job)
  | .jobsUpdate _ job => some ((), w.writeJob job)
  | .jobsListForUser userId => some (w.jobs.listForUser userId, w)
  | .jobsListByStatuses statuses => some (w.jobs.listByStatuses statuses, w)
  | .usersGet userId => some (w.users.get? userId, w)
  | .usersUpdate charge _ user => some ((), w.writeUser charge user)
  | .usersGetByEmail email => some (w.users.getByEmail email, w)
  | .usersGetByHfUserId hfUserId => some (w.users.getByHfUserId hfUserId, w)
  | .usersCreate user =>
    if (w.users.get? user.id).isSome then none else some ((), { w with users := w.users.put user })
  | .captchaVerify _ => some (o.captcha, w)
  | .hfExchangeCode _ _ => some (o.outcome o.profile, w)
  | .gensalt => some (o.text, w)
  | .storageExists objectPath => some ((w.objects.get? objectPath).isSome, w)
  | .storageOpenReadStream purpose objectPath =>
    match w.objects.get? objectPath with
    | some (_, data) => some (.ok data, w.record (.opened purpose objectPath data))
    | none => some (.error (.fileNotFound objectPath), w)
  | .storageDelete objectPath => some ((), { w with objects := w.objects.erase objectPath })
  | .storageUploadFile objectPath jobId =>
    match o.fault with
    | some e => some (.error e, w)
    | none => some (.ok (), w.uploadFile objectPath jobId o.data)
  | .storageGenerateUploadUrl objectPath _ expiresInSeconds =>
    some (o.text, { w with
      uploadTargets := (objectPath, w.clock + seconds expiresInSeconds) :: w.uploadTargets })
  | .storageGenerateDownloadUrl _ _ => some (o.text, w)
  | .hubRepoExists repoId => some ((w.repos.get? repoId).isSome, w)
  | .hubListRepoFiles repoId => some ((w.repoFiles repoId).map fun files => files.map Prod.fst, w)
  | .hubGetRepoFileBytes repoId pathInRepo =>
    some ((w.repoFiles repoId).bind fun files =>
      match files.lookup pathInRepo with
      | some content => .ok content
      | none => .error (.fileNotFound s!"{repoId}:{pathInRepo}"), w)
  | .hubDownloadDataset repoId dirName =>
    match w.repoFiles repoId, o.fault with
    | .error e, _ => some (.error e, w)
    | .ok files, some e =>
      some (.error e, w.download o.time repoId dirName (files.filter fun file => file.1 ∈ o.paths))
    | .ok files, none =>
      some (.ok (), (w.download o.time repoId dirName files).record (.downloaded repoId files))
  | .cacheExists name => some (o.outcome (w.cache.get? name).isSome, w)
  | .cacheTouch name =>
    match o.fault, w.cache.get? name with
    | some e, _ => some (.error e, w)
    | none, some child =>
      some (.ok (), { w with cache := w.cache.put { child with mtime := o.time } })
    | none, none => some (.ok (), w)
  | .cacheMkdir => some (o.outcome (), w)
  | .cacheReplace source target =>
    match o.fault, w.cache.get? source with
    | some e, _ => some (.error e, w)
    | none, none => some (.error (.fileNotFound source), w)
    | none, some child =>
      if (w.cache.get? target).any fun old => !old.isDir || !old.files.rows.isEmpty then
        some (.error (.other "OSError" "Directory not empty"), w)
      else
        let cache := (w.cache.erase source).put { child with name := target }
        some (.ok (), { w with cache := cache })
  | .cacheIterdir => some (o.outcome (w.listing o.order), w)
  | .cacheRmtree name => some ((), { w with cache := w.cache.erase name })
  | .dockerRun spec =>
    match o.fault with
    | some e => some (.error e, (w.prepareMounts o.time spec).record (.ran spec.jobId?))
    | none =>
      if o.text = "" ∨ (w.containers.get? o.text).isSome then none
      else some (.ok o.text,
        ((w.prepareMounts o.time spec).runContainer spec o.text).record (.ran spec.jobId?))
  | .dockerKill containerId =>
    match w.containers.kill containerId with
    | .ok containers => some (.ok (), { w with containers := containers })
    | .error e => some (.error e, w)
  | .dockerGetExitCode containerId => some (w.containers.getExitCode containerId, w)
  | .dockerGetLogs containerId =>
    some (if w.containers.stateOf containerId = .removed then "" else o.text, w)
  | .dockerListRunningContainerIds => some (w.containers.listRunningContainerIds, w)
  | .makeJobDir jobId =>
    match o.fault with
    | some e => some (.error e, w)
    | none => some (.ok (), w.makeJobDir jobId)
  | .removeJobDir jobId => some ((), { w with jobDirs := w.jobDirs.erase jobId })
  | .extractAll _ _ => some (o.outcome (), w)
  | .readProgressFile jobId => some (w.progressFile jobId, w)
  | .packageCheckpoint _ => some (o.outcome (), w)

end World

/-- What happens without any program: containers exit or are removed, a container writes
its progress, a client uses a signed upload URL while it is valid, a public repository
changes. -/
inductive Event
  | containerExits (containerId : String) (code : ℤ)
  | containerRemoved (containerId : String)
  | progressWritten (jobId : String) (content : ProgressFile)
  | clientPut (objectPath : String) (data : Bytes)
  | hubPush (repoId : String) (files : List (String × Bytes))

def World.occur : Event → World → Option World
  | .containerExits containerId code, w =>
    if w.containers.stateOf containerId = .running then
      some { w with containers := w.containers.setState containerId (.exited code) }
    else none
  | .containerRemoved containerId, w =>
    some { w with containers := w.containers.setState containerId .removed }
  | .progressWritten jobId content, w =>
    (w.jobDirs.get? jobId).map fun dir =>
      { w with jobDirs := w.jobDirs.put { dir with progress := some content } }
  | .clientPut objectPath data, w =>
    if w.uploadTargets.any fun target => target.1 == objectPath && decide (w.clock ≤ target.2) then
      some (w.storeObject objectPath data)
    else none
  | .hubPush repoId files, w => some { w with repos := w.repos.put (repoId, files) }

end TrainVla
