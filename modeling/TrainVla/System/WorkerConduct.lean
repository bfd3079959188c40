import TrainVla.System.BackendConduct

/-! The walk through the operations of the worker. -/
namespace TrainVla

open Interaction

section

variable {P : Protocol} {D : Deployment} {fs : List Fact}

namespace CancelWatcher

/-- Whatever becomes of the container, the job may be cancelled afterwards. -/
theorem conducts_stopContainer (hP : P.Valid D) (jobs : List Job) (now : ℤ) {job : Job}
    {Q : Except Exc Unit → World → Prop} (hrequested : job.cancelRequested = true)
    (hactive : job.status.Active)
    (hok : ∀ st done, JobWrite .pollerTick st job now .read
        { job with status := .cancelled, updatedAt := now } →
      (st = .dead → .cleared job.id ∈ done) →
      Accepts P .pollerTick (done ++ .job st job :: .time now :: .calm :: jobs.map (.job .read)) Q
        (.ok ()))
    (herr : ∀ e, Accepts P .pollerTick [.calm] Q (.error e)) :
    Conducts P D .pollerTick (.job .read job :: .time now :: .calm :: jobs.map (.job .read)) Q
      (stopContainer job) := by
  unfold stopContainer
  split
  · rename_i containerId hcontainer
    split
    · have hkilled : JobWrite .pollerTick .dead job now .read _ := .cancelKilled hrequested hactive
      refine .perform hP (fun _ _ _ => rfl) fun r _ => ?_
      cases r with
      | error e =>
        exact ⟨[.calm], by simpa using .of_mem (by simp) (.inl rfl), .raise hP (herr e)⟩
      | ok u =>
        refine ⟨.job .dead job :: .time now :: .calm :: jobs.map (.job .read), ?_, ?_⟩
        · simp only [List.mem_cons, List.mem_map, forall_eq_or_imp, forall_exists_index, and_imp,
            forall_apply_eq_imp_iff₂]
          exact ⟨.of_learns (.killed hcontainer) (by simp), .of_mem (by simp) (.inr ⟨_, rfl⟩),
            .of_mem (by simp) (.inl rfl), fun other h => .of_mem (by simp [h]) trivial⟩
        · refine .removeJobDir hP ?_ (.pure hP (hok .dead [.cleared job.id] hkilled (by simp)))
          simp [Survives]
    · rename_i hstatus
      have hqueued : job.status = .queued := by
        revert hactive hstatus
        cases job.status <;> decide
      exact .pure hP (hok .read [] (.cancelUnstarted hrequested hactive (.inl hqueued)) (by simp))
  · rename_i hcontainer
    exact .pure hP (hok .read [] (.cancelUnstarted hrequested hactive (.inr hcontainer)) (by simp))

theorem conducts_cancelRequested (hP : P.Valid D) {now : ℤ} {jobs : List Job}
    {Q : Except Exc (List Job) → World → Prop} (hnodup : (jobs.map Job.id).Nodup)
    (hactive : ∀ job ∈ jobs, job.status.Active) (hQ : ∀ r, Accepts P .pollerTick [.calm] Q r) :
    Conducts P D .pollerTick (.time now :: .calm :: jobs.map (.job .read)) Q
      (cancelRequested now jobs) := by
  induction jobs generalizing Q with
  | nil => exact .pure hP ((hQ _).weaken (by simp))
  | cons job jobs ih =>
    rw [List.map_cons, List.nodup_cons] at hnodup
    rw [List.forall_mem_cons] at hactive
    unfold cancelRequested
    split
    · exact (ih hnodup.2 hactive.2 hQ).weaken (by simp +contextual)
    · rename_i hrequested
      have hrequested : job.cancelRequested = true := by simpa using hrequested
      have hstop := @conducts_stopContainer P D hP jobs now job
      refine .bind hP ((hstop hrequested hactive.1 (fun st done hwrite hdone => .next ?_)
        fun e => hQ (.error e)).weaken (by simp +contextual))
      have hcan : canTransition job.status .cancelled = true :=
        JobStatus.cancelled_of_active hactive.1
      rw [transition_of_can hcan]
      refine .write hP jobs hwrite trivial (by simp) (by simp) (by simp)
        (fun h => List.mem_append_left _ (hdone h)) (by simp)
        (fun other hother => ⟨by simp [hother], ne_of_not_mem_ids hnodup.1 hother⟩) ?_
      refine .bind hP ((ih hnodup.2 hactive.2 fun r => ?_).weaken fun f => List.mem_cons_of_mem _)
      cases r with
      | ok cancelledJobs => exact .next (.pure hP (hQ _))
      | error e => exact hQ (.error e)

theorem conducts_processCancellations (hP : P.Valid D) {Q : Except Exc (List Job) → World → Prop}
    (hQ : ∀ r, Accepts P .pollerTick [.calm] Q r) :
    Conducts P D .pollerTick [.calm] Q processCancellations := by
  refine .now hP (by simp [Survives]) fun now => ⟨_, _, .time, by simp, .list hP fun jobs hjobs => ?_⟩
  have hactive : ∀ job ∈ jobs, job.status.Active := fun job h => hjobs.status_of_listed h
  exact conducts_cancelRequested hP hjobs.nodup_of_listed hactive hQ

end CancelWatcher

namespace DiskManager

theorem conducts_evictEntries (hP : P.Valid D) {op : Op} {maxBytes total : ℤ}
    {entries : List CacheEntry} {Q : Except Exc (List String) → World → Prop}
    (hQ : ∀ r, Accepts P op fs Q r) :
    Conducts P D op fs Q (evictEntries maxBytes total entries) := by
  induction entries generalizing total Q with
  | nil => exact .pure hP (hQ _)
  | cons entry entries ih =>
    unfold evictEntries
    split
    · exact .pure hP (hQ _)
    · refine .quiet hP rfl fun _ _ => .bind hP (ih fun r => ?_)
      cases r with
      | ok removed => exact .next (.pure hP (hQ _))
      | error e => exact hQ (.error e)

theorem conducts_evictLruUntilUnderCap (hP : P.Valid D) {op : Op} {maxBytes : ℤ}
    {Q : Except Exc (List String) → World → Prop} (hQ : ∀ r, Accepts P op fs Q r) :
    Conducts P D op fs Q (evictLruUntilUnderCap maxBytes) :=
  .bind hP (.quiet hP rfl fun _ _ => .ofExcept hP (fun _ _ => .pure hP
    (.next (conducts_evictEntries hP hQ))) fun e _ => hQ (.error e))

end DiskManager

namespace DatasetFetcher

theorem conducts_fetchHfDataset (hP : P.Valid D) {settings : WorkerSettings} {repoId : String}
    {Q : Except Exc String → World → Prop} (hQ : ∀ r, Accepts P .pollerTick fs Q r) :
    Conducts P D .pollerTick fs Q (fetchHfDataset settings repoId) := by
  unfold fetchHfDataset
  refine .quiet hP rfl fun _ _ => .ofExcept hP (fun hit _ => ?_) fun e _ => hQ (.error e)
  split
  · exact .quiet hP rfl fun _ _ => .ofExcept hP (fun _ _ => .pure hP (hQ _)) fun e _ => hQ (.error e)
  refine .quiet hP rfl fun _ _ => .ofExcept hP (fun _ _ => ?_) fun e _ => hQ (.error e)
  refine .quiet hP rfl fun r _ => ?_
  split
  · exact .raise hP (hQ _)
  · exact .raise hP (hQ _)
  refine .bind hP (.quiet hP rfl fun r _ => .outcome hP ?_)
  cases r with
  | error e => exact hQ (.error e)
  | ok u =>
    refine .next (.bind hP (DiskManager.conducts_evictLruUntilUnderCap hP fun r => ?_))
    cases r with
    | error e => exact hQ (.error e)
    | ok removed => exact .next (.pure hP (hQ _))

/-- The archive that is extracted is the one of the charged job. -/
theorem conducts_openAndExtract (hP : P.Valid D) {job : Job} {Q : Except Exc Unit → World → Prop}
    (hjob : .job .charged job ∈ fs) (hzip : job.sourceType = .zipUpload)
    (hQ : ∀ r, Accepts P .pollerTick fs Q r) :
    Conducts P D .pollerTick fs Q (openAndExtract D.lib job.id job.sourceRef) := by
  refine .perform hP (fun w _ hf => ⟨rfl, job, hf _ hjob, hzip, rfl⟩) fun r _ => ?_
  cases r with
  | error e => exact ⟨fs, fun g hg => .of_mem hg trivial, .raise hP (hQ _)⟩
  | ok data =>
    have herr : ∀ e, Accepts P .pollerTick (.extracting job.sourceRef data :: fs) Q (.error e) :=
      fun e => (hQ _).weaken fun g hg => List.mem_cons_of_mem _ hg
    refine ⟨.extracting job.sourceRef data :: fs, fun g hg => ?_, .ofExcept hP (fun bytes hbytes => ?_)
      fun e _ => herr e⟩
    · rcases List.mem_cons.mp hg with rfl | hg
      · exact .of_learns .extracting (by simp)
      · exact .of_mem hg trivial
    · obtain rfl := Except.ok.inj hbytes
      refine .ofExcept hP (fun _ _ => .allowed hP (fun _ hf => ?_) (fun _ _ => trivial)
        fun r _ => .outcome hP ?_) fun e _ => herr e
      · exact ⟨rfl, job, hf _ (by simp [hjob]), rfl, hf _ (by simp)⟩
      · exact (hQ r).weaken fun g hg => List.mem_cons_of_mem _ hg

theorem conducts_fetchForJob (hP : P.Valid D) {settings : WorkerSettings} {job : Job}
    {jobDir : String} {Q : Except Exc FetchedDataset → World → Prop}
    (hjob : .job .charged job ∈ fs) (hmake : ∀ f ∈ fs, Survives (.makeJobDir job.id) f)
    (hdelete : ∀ f ∈ fs, Survives (.storageDelete job.sourceRef) f)
    (hQ : ∀ r, Accepts P .pollerTick fs Q r) :
    Conducts P D .pollerTick fs Q (fetchForJob D.lib settings job jobDir) := by
  have hfail : ∀ {e}, Conducts P D .pollerTick fs Q (.raise e) := .raise hP (hQ _)
  have hdone : ∀ {dataset}, Conducts P D .pollerTick fs Q (pure dataset) := .pure hP (hQ _)
  unfold fetchForJob
  split
  · refine .bind hP (conducts_fetchHfDataset hP fun r => ?_)
    cases r with
    | ok inputDir => exact .next hdone
    | error e => exact hQ (.error e)
  · rename_i hzip
    refine .bind hP (.allowed hP (fun _ hf => ⟨rfl, job, hf _ hjob, rfl⟩) hmake fun r _ =>
      .ofExcept hP (fun _ _ => ?_) fun e _ => hQ (.error e))
    refine .bind hP (.attempt (conducts_openAndExtract hP hjob hzip fun r => .next ?_))
    split
    · exact .raise hP (hQ (.error _))
    · exact .raise hP (hQ (.error _))
    · exact .raise hP (hQ (.error _))
    · refine .allowed hP (fun _ hf => .inr ⟨rfl, job, hf _ hjob, hzip, rfl⟩) hdelete fun _ _ => ?_
      exact .pure hP (.next hdone)

end DatasetFetcher

namespace JobPoller

/-- Both ways in which a start fails after the charge. -/
theorem conducts_failDuringStart (hP : P.Valid D) {st : Stage} {job : Job} {message : String}
    {Q : Except Exc (Option Job) → World → Prop} (hst : st = .charged ∨ st = .refused)
    (hstatus : job.status = .initializing) (hQ : ∀ r, Accepts P .pollerTick [.calm] Q r) :
    Conducts P D .pollerTick [.job st job, .calm] Q (failDuringStart job message) := by
  refine .now hP (by simp [Survives]) fun now => ⟨_, _, .time, by simp, ?_⟩
  have hcan : canTransition job.status .failed = true := by rw [hstatus]; rfl
  rw [transition_of_can hcan]
  have hwrite : JobWrite .pollerTick st job now .read
      { job with status := .failed, updatedAt := now, errorMessage := some message } := by
    rcases hst with rfl | rfl
    · exact .failUnfetched hstatus
    · exact .failRefused hstatus
  have hlive : st ≠ .dead := by rcases hst with rfl | rfl <;> simp
  refine .write hP [] hwrite trivial (by simp) (by simp) (by simp) (fun h => absurd h hlive)
    (by simp) (by simp) ?_
  exact .pure hP ((hQ _).weaken (by simp))

theorem conducts_launch (hP : P.Valid D) {job : Job} (now : ℤ)
    {Q : Except Exc (Option Job) → World → Prop} (hstatus : job.status = .initializing)
    (hQ : ∀ r, Accepts P .pollerTick [.calm] Q r) :
    Conducts P D .pollerTick [.job .charged job, .time now, .calm] Q
      (launch D.lib D.settings job) := by
  unfold launch
  dsimp only
  refine .bind hP (.attempt (DatasetFetcher.conducts_fetchForJob hP (by simp)
    (by simp [Survives]) (by simp [Survives]) fun r => .next ?_))
  split
  · exact (conducts_failDuringStart hP (.inl rfl) hstatus hQ).weaken (by simp)
  · exact .raise hP ((hQ _).weaken (by simp))
  rename_i dataset
  have hspec := buildContainerSpec_jobId? D.settings job s!"{D.settings.workdir}/{job.id}" dataset
  refine .perform hP (fun w _ hf => ⟨rfl, job, hf _ (by simp), hspec⟩) fun r _ => ?_
  cases r with
  | error e =>
    refine ⟨[.job .refused job, .calm], ?_, conducts_failDuringStart hP (.inr rfl) hstatus hQ⟩
    simp only [List.mem_cons, List.not_mem_nil, or_false, forall_eq_or_imp, forall_eq]
    exact ⟨.of_learns (.refused hspec) (by simp), .of_learns .calmRefused (by simp)⟩
  | ok containerId =>
    refine ⟨[.job (.launched containerId) job, .time now], ?_, ?_⟩
    · simp only [List.mem_cons, List.not_mem_nil, or_false, forall_eq_or_imp, forall_eq]
      exact ⟨.of_learns (.launched hspec) (by simp), .of_mem (by simp) (.inr ⟨now, rfl⟩)⟩
    · have hwrite : JobWrite .pollerTick (.launched containerId) job now .read
          { job with containerId := some containerId } := .recordContainer hstatus
      refine .write hP [] hwrite trivial (by simp) (by simp) (fun h => h.elim) (by simp)
        (by simp [hstatus]) (by simp) ?_
      exact .pure hP ((hQ _).weaken (by simp))

/-- The charge for a job that was just started, and the rest. -/
theorem conducts_charge (hP : P.Valid D) (job : Job) {user : User} {now : ℤ}
    {Q : Except Exc (Option Job) → World → Prop} (hstatus : job.status = .initializing)
    (hheartbeat : job.heartbeatAt = some now) (hQ : ∀ r, Accepts P .pollerTick [.calm] Q r) :
    Conducts P D .pollerTick [.job (.started user) job, .time now] Q
      (perform (.usersUpdate (some job.id) user (recordJobStarted user (dateOf now))) >>=
        fun _ => launch D.lib D.settings job) := by
  refine .perform hP (fun w _ hf => ⟨rfl, job, now, hf _ (by simp), rfl, hheartbeat, rfl⟩)
    fun _ _ => ⟨_, ?_, conducts_launch hP now hstatus hQ⟩
  have hstarted : ∀ f ∈ [Fact.job (.started user) job],
      f ∈ [Fact.job (.started user) job, .time now] := by simp
  simp only [List.mem_cons, List.not_mem_nil, or_false, forall_eq_or_imp, forall_eq]
  exact ⟨.of_learns .charged hstarted, .of_mem (by simp) (.inr ⟨now, rfl⟩),
    .of_learns .calmCharged hstarted⟩

theorem conducts_startJob (hP : P.Valid D) {job : Job} {Q : Except Exc (Option Job) → World → Prop}
    (hstatus : job.status = .queued) (hQ : ∀ r, Accepts P .pollerTick [.calm] Q r) :
    Conducts P D .pollerTick [.job .next job, .calm] Q (startJob D.lib D.settings job) := by
  refine .now hP (by simp [Survives]) fun now => ⟨_, _, .time, by simp, .ask hP rfl fun user _ => ?_⟩
  cases user with
  | none => exact .inl (.raise hP ((hQ _).weaken (by simp)))
  | some user =>
    refine .inr ⟨_, _, .owned, by simp, ?_⟩
    have hcan : canTransition job.status .initializing = true := by rw [hstatus]; rfl
    dsimp only
    rw [transition_of_can hcan]
    have hwrite : JobWrite .pollerTick (.owned user) job now (.started user) _ := .start hstatus
    refine .perform hP (fun w _ hf => ⟨_, _, _, hwrite, hf _ (by simp), hf _ (by simp),
      fun _ => hf _ (by simp), by simp, by simp⟩) fun _ _ => ⟨_, ?_, conducts_charge hP
        { job with status := .initializing, updatedAt := now, heartbeatAt := some now } rfl rfl hQ⟩
    simp only [List.mem_cons, List.not_mem_nil, or_false, forall_eq_or_imp, forall_eq]
    refine ⟨.of_learns (.wrote hwrite ?_ ?_ fun _ => ?_) fun _ => id,
      .of_mem (by simp) (.inr ⟨now, rfl⟩)⟩ <;> simp

theorem conducts_tick (hP : P.Valid D) {Q : Except Exc (Option Job) → World → Prop}
    (hQ : ∀ r, Accepts P .pollerTick [.calm] Q r) :
    Conducts P D .pollerTick [.calm] Q (tick D.lib D.settings) := by
  refine .bind hP (CancelWatcher.conducts_processCancellations hP fun r => ?_)
  cases r with
  | error e => exact hQ (.error e)
  | ok cancelled =>
    refine .next (.ask hP rfl fun active _ => ?_)
    cases active with
    | cons job jobs => exact .inl (.pure hP (hQ _))
    | nil =>
      refine .inr ⟨_, _, .free, by simp, .ask hP rfl fun queued hqueued => ?_⟩
      cases queued with
      | nil => exact .inl (.pure hP ((hQ _).weaken (by simp)))
      | cons job jobs =>
        have hstatus : job.status = .queued := by
          simpa using hqueued.status_of_listed (List.mem_cons_self ..)
        refine .inr ⟨_, _, .next, by simp, ?_⟩
        exact (conducts_startJob hP hstatus hQ).weaken (by simp)

end JobPoller

namespace JobCompletion

/-- The stage in which a monitored job is known stays the same when it enters training. -/
theorem conducts_enterTraining (hP : P.Valid D) {job : Job} {progress : Option Progress}
    {exitCode : Option ℤ} {Q : Except Exc Job → World → Prop}
    (hmonitored : job.status ∈ monitoredStatuses) (hreason : progress ≠ none ∨ exitCode ≠ none)
    (hok : ∀ job', job'.status = .training →
      Accepts P .completionTick [.job (.polled progress exitCode) job', .calm] Q (.ok job')) :
    Conducts P D .completionTick [.job (.polled progress exitCode) job, .calm] Q
      (enterTraining job) := by
  unfold enterTraining
  split
  · rename_i hstatus
    refine .now hP (by simp [Survives]) fun now => ⟨_, _, .time, by simp, ?_⟩
    have hcan : canTransition job.status .training = true := by rw [hstatus]; rfl
    rw [transition_of_can hcan]
    have hdone := hok { job with status := .training, updatedAt := now } rfl
    have hwrite : JobWrite .completionTick (.polled progress exitCode) job now
        (.polled progress exitCode) _ := .enterTraining hstatus hreason
    refine .write hP [] hwrite trivial (by simp) (by simp) (by simp) (by simp) (by simp) (by simp) ?_
    exact .pure hP (hdone.weaken (by simp))
  · rename_i hstatus
    have htraining : job.status = .training := by
      revert hmonitored hstatus
      cases job.status <;> decide
    exact .pure hP (hok job htraining)

theorem conducts_followProgress (hP : P.Valid D) {job : Job} {progress : Option Progress}
    {exitCode : Option ℤ} {Q : Except Exc Job → World → Prop}
    (hmonitored : job.status ∈ monitoredStatuses)
    (hok : ∀ job', job'.status ∈ monitoredStatuses →
      Accepts P .completionTick [.job (.polled progress exitCode) job', .calm] Q (.ok job')) :
    Conducts P D .completionTick [.job (.polled progress exitCode) job, .calm] Q
      (followProgress job progress exitCode) := by
  unfold followProgress
  split
  · rename_i latest
    refine .bind hP (conducts_enterTraining hP hmonitored (.inl nofun) fun job' hstatus => .next ?_)
    have hmonitored' : job'.status ∈ monitoredStatuses := by rw [hstatus]; decide
    unfold recordProgress
    split
    · exact .pure hP (hok job' hmonitored')
    · refine .now hP (by simp [Survives]) fun now => ⟨_, _, .time, by simp, ?_⟩
      have hdone := hok { job' with progress := some latest, heartbeatAt := some now } hmonitored'
      have hwrite : JobWrite .completionTick (.polled (some latest) exitCode) job' now
          (.polled (some latest) exitCode) _ := .recordProgress hstatus
      refine .write hP [] hwrite trivial (by simp) (by simp) (by simp) (by simp) (by simp [hstatus])
        (by simp) ?_
      exact .pure hP (hdone.weaken (by simp))
  · split
    · rename_i h
      obtain ⟨hstatus, rfl⟩ := h
      refine .now hP (by simp [Survives]) fun now => ⟨_, _, .time, by simp, ?_⟩
      have hdone := hok { job with heartbeatAt := some now } hmonitored
      refine .write hP [] (.markAlive hstatus) trivial (by simp) (by simp) (by simp) (by simp)
        (by simp [hstatus]) (by simp) ?_
      exact .pure hP (hdone.weaken (by simp))
    · exact .pure hP (hok job hmonitored)

theorem conducts_markFailed (hP : P.Valid D) {job : Job} {progress : Option Progress}
    {exitCode : ℤ} {message : String} {cleanup : Bool} {Q : Except Exc Job → World → Prop}
    (hstatus : job.status = .training) (hQ : ∀ r, Accepts P .completionTick [.calm] Q r) :
    Conducts P D .completionTick [.job (.polled progress (some exitCode)) job, .calm] Q
      (markFailed job message cleanup) := by
  refine .now hP (by simp [Survives]) fun now => ⟨_, _, .time, by simp, ?_⟩
  have hcan : canTransition job.status .failed = true := by rw [hstatus]; rfl
  rw [transition_of_can hcan]
  have hwrite : JobWrite .completionTick (.polled progress (some exitCode)) job now .read
      { job with status := .failed, updatedAt := now, errorMessage := some message } :=
    .fail hstatus
  refine .write hP [] hwrite trivial (by simp) (by simp) (by simp) (by simp) (by simp) (by simp) ?_
  dsimp only
  split
  · exact .removeJobDir hP (by simp [Survives]) (.pure hP ((hQ _).weaken (by simp)))
  · exact .pure hP ((hQ _).weaken (by simp))

theorem conducts_markCompleted (hP : P.Valid D) {job : Job} {progress : Option Progress}
    {Q : Except Exc Job → World → Prop} (hstatus : job.status = .training)
    (hQ : ∀ r, Accepts P .completionTick [.calm] Q r) :
    Conducts P D .completionTick [.uploaded job.id, .job (.polled progress (some 0)) job, .calm] Q
      (markCompleted job (checkpointPath job.id)) := by
  refine .now hP (by simp [Survives]) fun now => ⟨_, _, .time, by simp, ?_⟩
  have hcan : canTransition job.status .completed = true := by rw [hstatus]; rfl
  rw [transition_of_can hcan]
  have hwrite : JobWrite .completionTick (.polled progress (some 0)) job now .read _ :=
    .complete hstatus
  refine .write hP [] hwrite trivial (by simp) (by simp) (by simp) (by simp) (by simp) (by simp) ?_
  exact .removeJobDir hP (by simp [Survives]) (.pure hP ((hQ _).weaken (by simp)))

theorem conducts_uploadAttempts (hP : P.Valid D) {job : Job} {progress : Option Progress} {n : ℕ}
    {Q : Except Exc Bool → World → Prop} (hstatus : job.status = .training)
    (hfailed : Accepts P .completionTick [.job (.polled progress (some 0)) job, .calm] Q (.ok false))
    (hdone : Accepts P .completionTick
      [.uploaded job.id, .job (.polled progress (some 0)) job, .calm] Q (.ok true)) :
    Conducts P D .completionTick [.job (.polled progress (some 0)) job, .calm] Q
      (uploadAttempts (checkpointPath job.id) job.id n) := by
  induction n with
  | zero => exact .pure hP hfailed
  | succ n ih =>
    refine .perform hP (fun w _ hf => ⟨rfl, rfl, job, progress, hf _ (by simp), hstatus, rfl⟩)
      fun r _ => ?_
    have hkept : ∀ g ∈ [Fact.job (.polled progress (some 0)) job, .calm],
        After D .completionTick [.job (.polled progress (some 0)) job, .calm]
          (.storageUploadFile (checkpointPath job.id) job.id) r g :=
      fun g hg => .of_mem hg (by revert g; simp [Survives])
    cases r with
    | error e => exact ⟨_, hkept, ih⟩
    | ok u =>
      refine ⟨_, List.forall_mem_cons.mpr ⟨.of_learns .uploaded (by simp), hkept⟩, ?_⟩
      exact .pure hP hdone

theorem conducts_finalize (hP : P.Valid D) {job : Job} {progress : Option Progress}
    {exitCode : ℤ} {Q : Except Exc Job → World → Prop} (hmonitored : job.status ∈ monitoredStatuses)
    (hQ : ∀ r, Accepts P .completionTick [.calm] Q r) :
    Conducts P D .completionTick [.job (.polled progress (some exitCode)) job, .calm] Q
      (finalize D.settings job exitCode) := by
  refine .bind hP (conducts_enterTraining hP hmonitored (.inr nofun) fun job hstatus => .next ?_)
  have hfail : ∀ message cleanup, Conducts P D .completionTick
      [.job (.polled progress (some exitCode)) job, .calm] Q (markFailed job message cleanup) :=
    fun message cleanup => conducts_markFailed hP hstatus hQ
  split
  · unfold getLogs
    refine .bind hP ?_
    split
    · exact .last hP rfl fun logs => .next (hfail _ _)
    · exact .pure hP (.next (hfail _ _))
  · rename_i hzero
    have hzero : exitCode = 0 := by omega
    subst hzero
    refine .quiet hP rfl fun r _ => ?_
    cases r with
    | error e => exact hfail _ _
    | ok u =>
      refine .bind hP (conducts_uploadAttempts hP hstatus (.next ?_) (.next ?_))
      · exact hfail _ _
      · exact conducts_markCompleted hP hstatus hQ

/-- A tick from the moment its job has been polled. -/
theorem conducts_polled (hP : P.Valid D) {job : Job} {progress : Option Progress}
    {exitCode : Option ℤ} {Q : Except Exc (Option Job) → World → Prop}
    (hmonitored : job.status ∈ monitoredStatuses)
    (hQ : ∀ r, Accepts P .completionTick [.calm] Q r) :
    Conducts P D .completionTick [.job (.polled progress exitCode) job, .calm] Q
      (followProgress job progress exitCode >>= fun job =>
        match exitCode with
        | none => pure (some job)
        | some code => finalize D.settings job code >>= fun job => pure (some job)) := by
  refine .bind hP (conducts_followProgress hP hmonitored fun job hmonitored => .next ?_)
  cases exitCode with
  | none => exact .pure hP ((hQ _).weaken (by simp))
  | some code =>
    refine .bind hP (conducts_finalize hP hmonitored fun r => ?_)
    cases r with
    | ok job => exact .next (.pure hP (hQ _))
    | error e => exact hQ (.error e)

theorem conducts_monitor (hP : P.Valid D) {job : Job} {Q : Except Exc (Option Job) → World → Prop}
    (hmonitored : job.status ∈ monitoredStatuses)
    (hQ : ∀ r, Accepts P .completionTick [.calm] Q r) :
    Conducts P D .completionTick [.job .read job, .calm] Q (monitor D.lib D.settings job) := by
  refine .ask hP rfl fun file _ => ?_
  cases hprogress : ProgressReader.readProgress D.lib file with
  | error e => exact .inl (.raise hP ((hQ _).weaken (by simp)))
  | ok progress =>
    unfold getExitCode
    cases hcontainer : job.container? with
    | none =>
      refine .inr ⟨_, _, .sawNoContainer hprogress hcontainer, by simp, ?_⟩
      exact (conducts_polled hP hmonitored hQ).weaken (by simp)
    | some containerId =>
      refine .inr ⟨_, _, .sawProgress hprogress, by simp, .ask hP rfl fun exitCode _ => ?_⟩
      refine .inr ⟨[.job (.sawProgress progress) job], _, .polled hcontainer, by simp, ?_⟩
      exact (conducts_polled hP hmonitored hQ).weaken (by simp)

theorem conducts_completionTick (hP : P.Valid D) {Q : Except Exc (Option Job) → World → Prop}
    (hQ : ∀ r, Accepts P .completionTick [.calm] Q r) :
    Conducts P D .completionTick [.calm] Q (tick D.lib D.settings) := by
  refine .list hP fun jobs hjobs => ?_
  cases jobs with
  | nil => exact .pure hP ((hQ _).weaken (by simp))
  | cons job jobs =>
    have hmonitored := hjobs.status_of_listed (List.mem_cons_self ..)
    exact (conducts_monitor hP hmonitored hQ).weaken (by simp)

end JobCompletion

namespace OrphanReconciler

theorem conducts_killAll (hP : P.Valid D) {ids : List String} {Q : Except Exc Unit → World → Prop}
    (hQ : ∀ r, Accepts P .reconcile [.calm] Q r) :
    Conducts P D .reconcile [.calm] Q (killAll ids) := by
  induction ids with
  | nil => exact .pure hP (hQ _)
  | cons id ids ih =>
    refine .perform hP (fun _ _ _ => rfl) fun r _ => ⟨[.calm], ?_, ?_⟩
    · simpa using .of_mem (by simp) (.inl rfl)
    · exact .ofExcept hP (fun _ _ => ih) fun e _ => hQ _

theorem conducts_reconcile (hP : P.Valid D) {Q : Except Exc ReconciliationResult → World → Prop}
    (hQ : ∀ r, Accepts P .reconcile [.calm] Q r) :
    Conducts P D .reconcile [.calm] Q reconcile := by
  refine .quiet hP rfl fun ids _ => .quiet hP rfl fun jobs _ => .bind hP ?_
  refine conducts_killAll hP fun r => ?_
  cases r with
  | ok u => exact .next (.pure hP (hQ _))
  | error e => exact hQ (.error e)

end OrphanReconciler

end

end TrainVla
