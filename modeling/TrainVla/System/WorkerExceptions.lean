import TrainVla.System.Exceptions

/-! What the operations of the worker raise. -/
namespace TrainVla

open Interaction

namespace CancelWatcher

variable {D : Deployment}

theorem raisesPlain_stopContainer (job : Job) : RaisesPlain D (stopContainer job) := by
  unfold stopContainer
  split
  · split
    · exact .perform fun _ hr => .ofExcept hr.plain_kill fun _ _ => .last _
    · exact .pure _
  · exact .pure _

theorem raisesPlain_cancelRequested (now : ℤ) {jobs : List Job}
    (hactive : ∀ job ∈ jobs, job.status.Active) : RaisesPlain D (cancelRequested now jobs) := by
  induction jobs with
  | nil => exact .pure _
  | cons job jobs ih =>
    rw [List.forall_mem_cons] at hactive
    unfold cancelRequested
    split
    · exact ih hactive.2
    · have hcan := JobStatus.cancelled_of_active hactive.1
      exact .bind (raisesPlain_stopContainer job) fun _ => .ofExcept (plain_transition now hcan)
        fun _ _ => .perform fun _ _ => .bind (ih hactive.2) fun _ => .pure _

theorem raisesPlain_processCancellations : RaisesPlain D processCancellations :=
  .perform fun now _ => .perform fun _ hjobs =>
    raisesPlain_cancelRequested now fun _ hjob => hjobs.possible.status_of_listed hjob

end CancelWatcher

namespace DatasetFetcher

variable {D : Deployment}

theorem raisesPlain_evictEntries (maxBytes total : ℤ) (entries : List DiskManager.CacheEntry) :
    RaisesPlain D (DiskManager.evictEntries maxBytes total entries) := by
  induction entries generalizing total with
  | nil => exact .pure _
  | cons entry entries ih =>
    unfold DiskManager.evictEntries
    split
    · exact .pure _
    · exact .perform fun _ _ => .bind (ih _) fun _ => .pure _

theorem raisesPlain_fetchHfDataset (settings : WorkerSettings) (repoId : String) :
    RaisesPlain D (fetchHfDataset settings repoId) := by
  unfold fetchHfDataset
  refine .perform fun _ hr => .ofExcept hr.plain_exists fun hit _ => ?_
  split
  · exact .perform fun _ hr => .ofExcept hr.plain_touch fun _ _ => .pure _
  refine .perform fun _ hr => .ofExcept hr.plain_mkdir fun _ _ => .perform fun r hr => ?_
  split
  · exact .raise rfl
  · exact .raise (hr.plain_download _ rfl)
  · have hevict : RaisesPlain D (DiskManager.evictLruUntilUnderCap settings.hfCacheMaxBytes) :=
      .bind (.perform fun _ hr => .ofExcept hr.plain_iterdir fun _ _ => .pure _) fun _ =>
        raisesPlain_evictEntries _ _ _
    exact .bind (.perform fun _ hr => .outcome hr.plain_replace) fun _ => .bind hevict fun _ => .pure _

theorem raisesPlain_extractZipUpload (hlib : D.lib.Ordinary) (jobId path targetDir : String) :
    RaisesPlain D (extractZipUpload D.lib jobId path targetDir) := by
  have hextract : RaisesPlain D (openAndExtract D.lib jobId path) :=
    .perform fun _ hr => .ofExcept hr.plain_open fun data _ =>
      .ofExcept (hlib.zipInfolist data) fun _ _ => .perform fun _ hr => .outcome hr.plain_extractAll
  refine .perform fun _ hmake => .ofExcept hmake.plain_makeJobDir fun _ _ => ?_
  refine .attempt hextract fun r hr => ?_
  split
  · exact .raise rfl
  · exact .raise rfl
  · exact .raise (hr _ rfl)
  · exact .perform fun _ _ => .pure _

theorem raisesPlain_fetchForJob (hlib : D.lib.Ordinary) (settings : WorkerSettings) (job : Job)
    (jobDir : String) : RaisesPlain D (fetchForJob D.lib settings job jobDir) := by
  unfold fetchForJob
  split
  · exact .bind (raisesPlain_fetchHfDataset settings _) fun _ => .pure _
  · exact .bind (raisesPlain_extractZipUpload hlib _ _ _) fun _ => .pure _

end DatasetFetcher

namespace JobPoller

variable {D : Deployment}

theorem raisesPlain_failDuringStart {job : Job} (message : String)
    (hstatus : job.status = .initializing) : RaisesPlain D (failDuringStart job message) := by
  have hcan : canTransition job.status .failed = true := by rw [hstatus]; rfl
  exact .perform fun now _ => .ofExcept (plain_transition now hcan) fun _ _ =>
    .perform fun _ _ => .pure _

theorem raisesPlain_launch (hlib : D.lib.Ordinary) {job : Job}
    (hstatus : job.status = .initializing) : RaisesPlain D (launch D.lib D.settings job) := by
  unfold launch
  dsimp only
  refine .attempt (DatasetFetcher.raisesPlain_fetchForJob hlib _ _ _) fun r hr => ?_
  split
  · exact raisesPlain_failDuringStart _ hstatus
  · exact .raise (hr _ rfl)
  · refine .perform fun r _ => ?_
    split
    · exact raisesPlain_failDuringStart _ hstatus
    · exact .perform fun _ _ => .pure _

end JobPoller

namespace JobCompletion

variable {D : Deployment}

/-- What this program returns is a job in one of the statuses. -/
def ReturnsIn (D : Deployment) (statuses : List JobStatus) (p : Service Job) : Prop :=
  Yields D.Admits (fun r => Plain r ∧ ∀ job, r = .ok job → job.status ∈ statuses) p

theorem returnsIn_pure {statuses : List JobStatus} {job : Job} (h : job.status ∈ statuses) :
    ReturnsIn D statuses (pure job) := by
  refine Yields.pure ⟨plain_ok job, fun job' heq => ?_⟩
  rwa [← Except.ok.inj heq]

theorem ReturnsIn.bind {α : Type} {statuses : List JobStatus} {p : Service Job}
    {f : Job → Service α} (hp : ReturnsIn D statuses p)
    (hf : ∀ job, job.status ∈ statuses → RaisesPlain D (f job)) : RaisesPlain D (p >>= f) := by
  refine Yields.bind (Yields.mono hp fun r hr => ?_)
  cases r with
  | ok job => exact hf job (hr.2 job rfl)
  | error e => exact plain_error (hr.1 e rfl)

theorem returnsIn_enterTraining {job : Job} (hjob : job.status ∈ monitoredStatuses) :
    ReturnsIn D [.training] (enterTraining job) := by
  unfold enterTraining
  split
  · rename_i hinitializing
    have hcan : canTransition job.status .training = true := by rw [hinitializing]; rfl
    refine Yields.perform fun now _ => ?_
    rw [transition_of_can hcan]
    exact Yields.perform fun _ _ => returnsIn_pure (by simp)
  · rename_i hother
    have htraining : job.status = .training := by
      revert hjob hother
      cases job.status <;> decide
    exact returnsIn_pure (by simp [htraining])

theorem returnsIn_followProgress {job : Job} (progress : Option Progress) (exitCode : Option ℤ)
    (hjob : job.status ∈ monitoredStatuses) :
    ReturnsIn D monitoredStatuses (followProgress job progress exitCode) := by
  unfold followProgress
  split
  · rename_i latest
    have hrecord : ∀ job : Job, job.status ∈ [JobStatus.training] →
        ReturnsIn D monitoredStatuses (recordProgress job latest) := by
      intro job hstatus
      have hmonitored : job.status ∈ monitoredStatuses := by
        rw [List.mem_singleton.mp hstatus]
        decide
      unfold recordProgress
      split
      · exact returnsIn_pure hmonitored
      · exact Yields.perform fun now _ => Yields.perform fun _ _ => returnsIn_pure hmonitored
    refine Yields.bind (Yields.mono (returnsIn_enterTraining hjob) fun r hr => ?_)
    cases r with
    | ok job => exact hrecord job (hr.2 job rfl)
    | error e => exact ⟨plain_error (hr.1 e rfl), fun _ heq => by cases heq⟩
  · split
    · exact Yields.perform fun now _ => Yields.perform fun _ _ => returnsIn_pure hjob
    · exact returnsIn_pure hjob

theorem raisesPlain_markFailed {job : Job} (message : String) (cleanup : Bool)
    (hstatus : job.status = .training) : RaisesPlain D (markFailed job message cleanup) := by
  have hcan : canTransition job.status .failed = true := by rw [hstatus]; rfl
  refine .perform fun now _ => .ofExcept (plain_transition now hcan) fun _ _ =>
    .perform fun _ _ => ?_
  split
  · exact .perform fun _ _ => .pure _
  · exact .pure _

theorem raisesPlain_markCompleted {job : Job} (path : String) (hstatus : job.status = .training) :
    RaisesPlain D (markCompleted job path) := by
  have hcan : canTransition job.status .completed = true := by rw [hstatus]; rfl
  exact .perform fun now _ => .ofExcept (plain_transition now hcan) fun _ _ =>
    .perform fun _ _ => .perform fun _ _ => .pure _

theorem raisesPlain_uploadAttempts (path jobId : String) (n : ℕ) :
    RaisesPlain D (uploadAttempts path jobId n) := by
  induction n with
  | zero => exact .pure _
  | succ n ih =>
    refine .perform fun r _ => ?_
    split
    · exact .pure _
    · exact ih

theorem raisesPlain_finalize {job : Job} (exitCode : ℤ) (hjob : job.status ∈ monitoredStatuses) :
    RaisesPlain D (finalize D.settings job exitCode) := by
  refine (returnsIn_enterTraining hjob).bind fun job hstatus => ?_
  have hstatus : job.status = .training := List.mem_singleton.mp hstatus
  split
  · have hlogs : RaisesPlain D (getLogs job) := by
      unfold getLogs
      split
      · exact .last _
      · exact .pure _
    exact .bind hlogs fun logs => raisesPlain_markFailed _ _ hstatus
  · refine .perform fun r _ => ?_
    split
    · exact raisesPlain_markFailed _ _ hstatus
    · refine .bind (raisesPlain_uploadAttempts _ _ _) fun uploaded => ?_
      split
      · exact raisesPlain_markCompleted _ hstatus
      · exact raisesPlain_markFailed _ _ hstatus

theorem plain_readProgress (lib : Library) (file : Option ProgressFile) :
    Plain (ProgressReader.readProgress lib file) := by
  unfold ProgressReader.readProgress
  split
  · exact plain_ok _
  · exact plain_ok _
  · exact plain_ok _
  · exact plain_ok _
  · exact plain_error rfl
  · unfold ProgressReader.progressOf
    split
    · split
      · exact plain_ok _
      · exact plain_error rfl
    · exact plain_ok _
  · exact plain_error rfl

theorem raisesPlain_monitor {job : Job} (hjob : job.status ∈ monitoredStatuses) :
    RaisesPlain D (monitor D.lib D.settings job) := by
  refine .perform fun file _ => .ofExcept (plain_readProgress D.lib file) fun progress _ => ?_
  have hcode : RaisesPlain D (getExitCode job) := by
    unfold getExitCode
    split
    · exact .last _
    · exact .pure _
  refine .bind hcode fun exitCode => (returnsIn_followProgress progress exitCode hjob).bind
    fun job hjob => ?_
  split
  · exact .pure _
  · exact .bind (raisesPlain_finalize _ hjob) fun _ => .pure _

theorem raisesPlain_tick : RaisesPlain D (tick D.lib D.settings) := by
  refine .perform fun jobs hjobs => ?_
  cases jobs with
  | nil => exact .pure _
  | cons job jobs => exact raisesPlain_monitor (hjobs.possible.status_of_listed List.mem_cons_self)

end JobCompletion

namespace OrphanReconciler

theorem raisesPlain_reconcile {D : Deployment} : RaisesPlain D reconcile := by
  have hkill : ∀ ids : List String, RaisesPlain D (killAll ids) := by
    intro ids
    induction ids with
    | nil => exact .pure _
    | cons id ids ih => exact .perform fun _ hr => .ofExcept hr.plain_kill fun _ _ => ih
  exact .perform fun _ _ => .perform fun _ _ => .bind (hkill _) fun _ => .pure _

end OrphanReconciler

/-- All operations but the tick of the poller, which also depends on what is stored. -/
theorem raisesPlain_code {D : Deployment} (hlib : D.lib.Ordinary) {op : Op}
    (hop : op ≠ .pollerTick) : RaisesPlain D (op.code D) := by
  have hdiscard : ∀ {α : Type} {p : Service α}, RaisesPlain D p → RaisesPlain D p.discard :=
    fun hp => .bind hp fun _ => .pure _
  cases op with
  | createJob userId policy sourceType sourceRef trainingSteps =>
    exact hdiscard (JobService.raisesPlain_createJob userId policy sourceType sourceRef trainingSteps)
  | createUploadTarget userId uploadId =>
    exact hdiscard (UploadService.raisesPlain_createUploadTarget userId uploadId)
  | confirmZipUpload userId uploadId policy trainingSteps =>
    exact hdiscard (UploadService.raisesPlain_confirmZipUpload hlib userId uploadId policy trainingSteps)
  | submitHfDataset userId repoId policy trainingSteps =>
    exact hdiscard (UploadService.raisesPlain_submitHfDataset hlib userId repoId policy trainingSteps)
  | listJobs userId => exact hdiscard (JobService.raisesPlain_listJobsForUser userId)
  | requestCancel userId jobId => exact hdiscard (JobService.raisesPlain_requestCancel userId jobId)
  | getDownloadUrl userId jobId =>
    exact hdiscard (JobService.raisesPlain_getDownloadUrl userId jobId)
  | registerWithEmail email password captchaToken =>
    exact hdiscard (AuthService.raisesPlain_registerWithEmail email password captchaToken)
  | loginWithEmail email password =>
    exact hdiscard (AuthService.raisesPlain_loginWithEmail email password)
  | changePassword userId oldPassword newPassword =>
    exact hdiscard (AuthService.raisesPlain_changePassword userId oldPassword newPassword)
  | loginOrRegisterWithHf code redirectUri =>
    exact hdiscard (AuthService.raisesPlain_loginOrRegisterWithHf code redirectUri)
  | timeoutSweep => exact hdiscard TimeoutService.raisesPlain_checkAndFailTimedOutJobs
  | reconcile => exact hdiscard OrphanReconciler.raisesPlain_reconcile
  | pollerTick => exact absurd rfl hop
  | completionTick => exact hdiscard JobCompletion.raisesPlain_tick

end TrainVla
