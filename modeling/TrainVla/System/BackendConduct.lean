import TrainVla.System.Conduct

/-! The walk through the operations of the backend. -/
namespace TrainVla

open Interaction

namespace Deployment.Possible

variable {D : Deployment}

theorem id_of_jobsGet {jobId : String} {job : Job}
    (h : D.Possible (.jobsGet jobId) (some job)) : job.id = jobId := by
  obtain ⟨o, w, w', he⟩ := h
  simp only [World.exec, Option.some.injEq, Prod.mk.injEq] at he
  exact Store.Table.key_of_get? he.1

theorem id_of_usersGet {userId : String} {user : User}
    (h : D.Possible (.usersGet userId) (some user)) : user.id = userId := by
  obtain ⟨o, w, w', he⟩ := h
  simp only [World.exec, Option.some.injEq, Prod.mk.injEq] at he
  exact Store.Table.key_of_get? he.1

theorem status_of_listed {statuses : List JobStatus} {jobs : List Job}
    (h : D.Possible (.jobsListByStatuses statuses) jobs) {job : Job} (hj : job ∈ jobs) :
    job.status ∈ statuses := by
  obtain ⟨o, w, w', he⟩ := h
  simp only [World.exec, Option.some.injEq, Prod.mk.injEq] at he
  rw [← he.1] at hj
  exact (JobTable.mem_listByStatuses.mp hj).2

theorem nodup_of_listed {statuses : List JobStatus} {jobs : List Job}
    (h : D.Possible (.jobsListByStatuses statuses) jobs) : (jobs.map Job.id).Nodup := by
  obtain ⟨o, w, w', he⟩ := h
  simp only [World.exec, Option.some.injEq, Prod.mk.injEq] at he
  rw [← he.1]
  exact JobTable.listByStatuses_nodup w.jobs statuses

end Deployment.Possible

theorem ne_of_not_mem_ids {job other : Job} {jobs : List Job} (h : job.id ∉ jobs.map Job.id)
    (ho : other ∈ jobs) : other.id ≠ job.id :=
  fun heq => h (List.mem_map.mpr ⟨other, ho, heq⟩)

section

variable {P : Protocol} {D : Deployment} {op : Op} {α : Type} {fs : List Fact}

attribute [local simp] Survives

namespace JobService

/-- `createJob`, with what a submission around it has found out. -/
theorem conducts_createJob (hP : P.Valid D) {Q : Except Exc Job → World → Prop}
    {userId sourceRef : String} {policy : PolicyType} {sourceType : SourceType}
    {trainingSteps : ℤ} (hop : op.submits = true) (hcaller : op.caller = some userId)
    (hcalm : .calm ∈ fs) (hnow : ∀ f ∈ fs, Survives .now f)
    (hlisted : op.direct = false → sourceType = .zipUpload →
      ∃ data, .listed sourceRef data ∈ fs ∧ Passes D data)
    (hsource : op.direct = false → sourceType = .zipUpload → ∃ uploadId policy trainingSteps,
      op = .confirmZipUpload userId uploadId policy trainingSteps ∧
      sourceRef = UploadService.objectPath userId uploadId)
    (hQ : ∀ r, Accepts P op [.calm] Q r) :
    Conducts P D op fs Q (createJob userId policy sourceType sourceRef trainingSteps) := by
  have hfail : ∀ {gs e}, Fact.calm ∈ gs → Conducts P D op gs Q (.raise e) := fun h =>
    .raise hP ((hQ _).weaken (by simpa using h))
  unfold createJob
  dsimp only
  split
  · exact hfail hcalm
  rename_i hsteps
  refine .ask hP rfl fun user huser => ?_
  cases user with
  | none => exact .inl (hfail hcalm)
  | some user =>
    have hid := huser.id_of_usersGet
    subst hid
    refine .inr ⟨_, _, .owner, by simp, .ask hP rfl fun jobs _ => .inr ⟨_, _, .slots, by simp, ?_⟩⟩
    refine .now hP (by simpa using hnow) fun today => ⟨[.slots user jobs], _, .dated, by simp, ?_⟩
    split
    · exact hfail (by simp [hcalm])
    rename_i hallowed
    refine .now hP (by simpa using hnow) fun now => ⟨[.dated user jobs today], _, .stamped,
      by simp, ?_⟩
    refine .quiet hP rfl fun id _ => .perform hP (fun w _ hf => ?_) fun _ _ => ?_
    · refine ⟨hop, user, jobs, today, now, ⟨by simpa using hsteps, by simpa using hallowed, rfl⟩,
        hf _ (by simp), rfl, hf _ (by simp [hcalm]), fun hd hs => ?_, hcaller, hsource⟩
      obtain ⟨data, hm, hpass⟩ := hlisted hd hs
      exact ⟨data, hf _ (by simp [hm]), hpass⟩
    · exact ⟨[.calm], by simpa using .of_mem (by simp [hcalm]) (.inl rfl), .pure hP (hQ _)⟩

theorem conducts_getJob (hP : P.Valid D) {Q : Except Exc Job → World → Prop} {jobId : String}
    (hok : ∀ job, job.id = jobId → Accepts P op (.job .read job :: fs) Q (.ok job))
    (herr : ∀ e, Accepts P op fs Q (.error e)) : Conducts P D op fs Q (getJob jobId) := by
  refine .ask hP rfl fun job hjob => ?_
  cases job with
  | none => exact .inl (.raise hP (herr _))
  | some job => exact .inr ⟨_, _, .got, by simp, .pure hP (hok job hjob.id_of_jobsGet)⟩

theorem conducts_listJobsForUser (hP : P.Valid D) {Q : Except Exc (List JobView) → World → Prop}
    {userId : String} (hQ : ∀ r, Accepts P op fs Q r) :
    Conducts P D op fs Q (listJobsForUser userId) := by
  refine .quiet hP rfl fun jobs _ => .quiet hP rfl fun queued _ => ?_
  exact .outcome hP (hQ _)

theorem conducts_requestCancel (hP : P.Valid D) {userId jobId : String}
    {Q : Except Exc Job → World → Prop}
    (hok : ∀ job, job.id = jobId → job.cancelRequested = true →
      Accepts P (.requestCancel userId jobId) [.job .read job, .calm] Q (.ok job))
    (herr : ∀ e, Accepts P (.requestCancel userId jobId) [.calm] Q (.error e)) :
    Conducts P D (.requestCancel userId jobId) [.calm] Q (requestCancel userId jobId) := by
  unfold requestCancel
  refine .bind hP (conducts_getJob hP (fun job hid => .next ?_) herr)
  split
  · exact .raise hP ((herr _).weaken (by simp))
  rename_i howner
  refine .now hP (by simp) fun now => ⟨_, _, .time, by simp, .ofExcept hP (fun new hnew => ?_) ?_⟩
  · obtain ⟨hactive, rfl⟩ := requestCancel_eq_ok hnew
    have hwrite : JobWrite (.requestCancel userId jobId) .read job now .read
        { job with cancelRequested := true, updatedAt := now } :=
      .requestCancel hactive (by simpa using howner)
    have hgoing : job.status ≠ .completed := by
      intro h
      rw [h] at hactive
      revert hactive
      decide
    refine .write hP [] hwrite trivial (by simp) (by simp) (by simp) (by simp)
      (fun h => absurd h hgoing) (by simp) ?_
    have hdone := hok { job with cancelRequested := true, updatedAt := now } hid rfl
    exact .pure hP (hdone.weaken (by simp))
  · exact fun e _ => (herr e).weaken (by simp)

theorem conducts_getDownloadUrl (hP : P.Valid D) {Q : Except Exc String → World → Prop}
    {userId jobId : String} (hQ : ∀ r, Accepts P (.getDownloadUrl userId jobId) [.calm] Q r) :
    Conducts P D (.getDownloadUrl userId jobId) [.calm] Q (getDownloadUrl userId jobId) := by
  unfold getDownloadUrl
  refine .bind hP (conducts_getJob hP (fun job hid => .next ?_) fun e => hQ (.error e))
  have hfail : ∀ {e}, Conducts P D (.getDownloadUrl userId jobId) [.job .read job, .calm] Q
      (.raise e) := .raise hP ((hQ _).weaken (by simp))
  split
  · exact hfail
  rename_i howner
  split
  · rename_i path hpath
    split
    · exact hfail
    rename_i hready
    have hready : job.status = .completed := by
      simp only [ne_eq, not_or, not_not] at hready
      exact hready.1
    refine .allowed hP (fun w hf => ?_) (by simp) fun url _ => ?_
    · exact ⟨userId, jobId, job, rfl, hf _ (by simp), by simpa using howner, hid, hready, hpath⟩
    · exact .pure hP ((hQ _).weaken (by simp))
  · exact hfail

end JobService

namespace UploadService

theorem conducts_createUploadTarget (hP : P.Valid D)
    {Q : Except Exc (String × String) → World → Prop} {userId : String} {uploadId : Option String}
    (hQ : ∀ r, Accepts P (.createUploadTarget userId uploadId) [.calm] Q r) :
    Conducts P D (.createUploadTarget userId uploadId) [.calm] Q
      (createUploadTarget userId uploadId) := by
  have hrest : ∀ id, Conducts P D (.createUploadTarget userId uploadId) [.calm] Q
      (perform (.storageGenerateUploadUrl (objectPath userId id) "application/zip"
        uploadUrlExpiresInSeconds) >>= fun url => pure (id, url)) := fun id =>
    .allowed hP (fun w _ => ⟨userId, uploadId, id, rfl, rfl⟩) (by simp)
      fun _ _ => .pure hP (hQ _)
  unfold createUploadTarget
  cases uploadId with
  | none => exact .quiet hP rfl fun id _ => hrest id
  | some id =>
    dsimp only
    split
    · exact .quiet hP rfl fun id _ => hrest id
    · exact hrest id

section confirm

variable {userId uploadId : String} {policy : PolicyType} {trainingSteps : ℤ}

theorem conducts_reject (hP : P.Valid D) {Q : Except Exc α → World → Prop}
    {message : Option String} (hcalm : .calm ∈ fs)
    (herr : ∀ e, Accepts P (.confirmZipUpload userId uploadId policy trainingSteps) [.calm] Q
      (.error e)) :
    Conducts P D (.confirmZipUpload userId uploadId policy trainingSteps) fs Q
      (reject (objectPath userId uploadId) message) := by
  refine .perform hP (fun _ _ _ => .inl ⟨_, _, _, _, rfl, rfl⟩) fun _ _ => ⟨[.calm], ?_, ?_⟩
  · simpa using .of_mem hcalm trivial
  · exact .raise hP (herr _)

theorem conducts_readZipEntries (hP : P.Valid D) {lib : Library}
    {Q : Except Exc (List ZipEntryMeta) → World → Prop}
    (hok : ∀ data entries, lib.zipInfolist data = .ok entries →
      Accepts P (.confirmZipUpload userId uploadId policy trainingSteps)
        (.listed (objectPath userId uploadId) data :: fs) Q (.ok entries))
    (herr : ∀ e, Accepts P (.confirmZipUpload userId uploadId policy trainingSteps) fs Q
      (.error e)) :
    Conducts P D (.confirmZipUpload userId uploadId policy trainingSteps) fs Q
      (readZipEntries lib (objectPath userId uploadId)) := by
  refine .perform hP (fun _ _ _ => ⟨_, _, _, _, rfl, rfl⟩) fun r _ => ?_
  cases r with
  | error e => exact ⟨fs, fun f hf => .of_mem hf trivial, .raise hP (herr e)⟩
  | ok data =>
    refine ⟨.listed (objectPath userId uploadId) data :: fs, fun f hf => ?_, .outcome hP ?_⟩
    · rcases List.mem_cons.mp hf with rfl | hf
      · exact .of_learns .listed (by simp)
      · exact .of_mem hf trivial
    · cases hz : lib.zipInfolist data with
      | ok entries => exact hok data entries hz
      | error e => exact (herr e).weaken fun f hf => List.mem_cons_of_mem _ hf

theorem conducts_readInfoJson (hP : P.Valid D) {lib : Library}
    {Q : Except Exc Json → World → Prop}
    (hQ : ∀ r, Accepts P (.confirmZipUpload userId uploadId policy trainingSteps) fs Q r) :
    Conducts P D (.confirmZipUpload userId uploadId policy trainingSteps) fs Q
      (readInfoJson lib (objectPath userId uploadId)) := by
  refine .bind hP (.allowed hP (fun _ _ => ⟨_, _, _, _, rfl, rfl⟩) (fun _ _ => trivial)
    fun r _ => ?_)
  refine .ofExcept hP (fun data _ => .ofExcept hP (fun _ _ => .outcome hP ?_) ?_) ?_
  · cases lib.zipRead data infoJsonPath with
    | ok raw => exact .next (.outcome hP (hQ _))
    | error e => exact hQ (.error e)
  · exact fun e _ => hQ (.error e)
  · exact fun e _ => hQ (.error e)

theorem conducts_confirmContent (hP : P.Valid D) {lib : Library} {data : Bytes}
    {Q : Except Exc Job → World → Prop} (hpass : Passes D data)
    (hQ : ∀ r, Accepts P (.confirmZipUpload userId uploadId policy trainingSteps) [.calm] Q r) :
    Conducts P D (.confirmZipUpload userId uploadId policy trainingSteps)
      [.listed (objectPath userId uploadId) data, .calm] Q
      (confirmContent lib userId (objectPath userId uploadId) policy trainingSteps) := by
  have hQ' : ∀ r, Accepts P (.confirmZipUpload userId uploadId policy trainingSteps)
      [.listed (objectPath userId uploadId) data, .calm] Q r :=
    fun r => (hQ r).weaken (by simp)
  refine .bind hP (.attempt (conducts_readInfoJson hP fun r => .next ?_))
  have hreject : ∀ m, Conducts P D (.confirmZipUpload userId uploadId policy trainingSteps)
      [.listed (objectPath userId uploadId) data, .calm] Q
      (reject (objectPath userId uploadId) m) :=
    fun m => conducts_reject hP (by simp) fun e => hQ (.error e)
  split
  · exact hreject _
  · exact hreject _
  · exact hreject _
  · exact .raise hP (hQ' _)
  · refine .ofExcept hP (fun shape _ => ?_) fun e _ => hQ' _
    split
    · exact hreject _
    · exact JobService.conducts_createJob hP rfl rfl (by simp) (by simp)
        (fun _ _ => ⟨data, by simp, hpass⟩) (fun _ _ => ⟨_, _, _, rfl, rfl⟩) hQ

theorem conducts_confirmZipUpload (hP : P.Valid D) {Q : Except Exc Job → World → Prop}
    (hQ : ∀ r, Accepts P (.confirmZipUpload userId uploadId policy trainingSteps) [.calm] Q r) :
    Conducts P D (.confirmZipUpload userId uploadId policy trainingSteps) [.calm] Q
      (confirmZipUpload D.lib D.limits userId uploadId policy trainingSteps) := by
  unfold confirmZipUpload
  dsimp only
  refine .allowed hP (fun _ _ => ⟨_, _, _, _, rfl, rfl⟩) (fun _ _ => trivial) fun present _ => ?_
  split
  · exact .raise hP (hQ _)
  refine .bind hP (.attempt (conducts_readZipEntries hP (fun data entries hz => .next ?_)
    fun e => .next ?_))
  · have hreject : ∀ m, Conducts P D (.confirmZipUpload userId uploadId policy trainingSteps)
        [.listed (objectPath userId uploadId) data, .calm] Q
        (reject (objectPath userId uploadId) m) :=
      fun m => conducts_reject hP (by simp) fun e => hQ (.error e)
    dsimp only
    split
    · exact hreject _
    rename_i hstructure
    split
    · exact hreject _
    rename_i hbomb
    exact conducts_confirmContent hP ⟨entries, hz, by simpa using hstructure, by simpa using hbomb⟩ hQ
  · split
    · exact conducts_reject hP (by simp) fun e => hQ _
    · exact .raise hP (hQ _)
    · rename_i h
      cases h

end confirm

theorem conducts_readRepoInfoJson (hP : P.Valid D) {lib : Library} {repoId : String}
    {Q : Except Exc Json → World → Prop} (hQ : ∀ r, Accepts P op fs Q r) :
    Conducts P D op fs Q (readRepoInfoJson lib repoId) :=
  .quiet hP rfl fun _ _ => .ofExcept hP (fun _ _ => .outcome hP (hQ _)) fun _ _ => hQ _

theorem conducts_submitHfDataset (hP : P.Valid D) {lib : Library} {userId repoId : String}
    {policy : PolicyType} {trainingSteps : ℤ} {Q : Except Exc Job → World → Prop}
    (hop : op.submits = true) (hcaller : op.caller = some userId)
    (hQ : ∀ r, Accepts P op [.calm] Q r) :
    Conducts P D op [.calm] Q (submitHfDataset lib userId repoId policy trainingSteps) := by
  have hfail : ∀ {e}, Conducts P D op [.calm] Q (.raise e) := .raise hP (hQ _)
  unfold submitHfDataset
  refine .quiet hP rfl fun present _ => ?_
  split
  · exact hfail
  refine .quiet hP rfl fun files _ => .ofExcept hP (fun entryNames _ => ?_) fun e _ => hQ _
  dsimp only
  split
  · exact hfail
  refine .bind hP (.attempt (conducts_readRepoInfoJson hP fun r => .next ?_))
  split
  · exact hfail
  · exact hfail
  · exact hfail
  · refine .ofExcept hP (fun shape _ => ?_) fun e _ => hQ _
    split
    · exact hfail
    · exact JobService.conducts_createJob hP hop hcaller (by simp) (by simp) (by simp)
        (by simp) hQ

end UploadService

namespace AuthService

theorem conducts_hashPassword (hP : P.Valid D) {lib : Library} {plainPassword : String}
    {Q : Except Exc String → World → Prop} (hQ : ∀ h, Accepts P op fs Q (.ok h)) :
    Conducts P D op fs Q (hashPassword lib plainPassword) :=
  .quiet hP rfl fun _ _ => .pure hP (hQ _)

/-- The write of a sign-up. -/
theorem conducts_create (hP : P.Valid D) {user : User} {Q : Except Exc User → World → Prop}
    (hnew : NewUser op user) (hcalm : .calm ∈ fs) (hQ : Accepts P op [.calm] Q (.ok user)) :
    Conducts P D op fs Q (perform (.usersCreate user) >>= fun _ => pure user) := by
  refine .perform hP (fun _ _ _ => hnew) fun _ _ => ⟨[.calm], ?_, .pure hP hQ⟩
  simpa using .of_mem hcalm (.inl rfl)

theorem conducts_registerWithEmail (hP : P.Valid D) {email password captchaToken : String}
    {Q : Except Exc User → World → Prop}
    (hQ : ∀ r, Accepts P (.registerWithEmail email password captchaToken) [.calm] Q r) :
    Conducts P D (.registerWithEmail email password captchaToken) [.calm] Q
      (registerWithEmail D.lib email password captchaToken) := by
  unfold registerWithEmail
  refine .quiet hP rfl fun captchaResult _ => ?_
  split
  · exact .raise hP (hQ _)
  refine .quiet hP rfl fun existing _ => ?_
  split
  · exact .raise hP (hQ _)
  refine .quiet hP rfl fun id _ => .bind hP (conducts_hashPassword hP fun passwordHash => .next ?_)
  refine .now hP (by simp) fun createdAt => ⟨[], _, .time, by simp, ?_⟩
  exact conducts_create hP .email (by simp) (hQ _)

theorem conducts_loginWithEmail (hP : P.Valid D) {lib : Library} {email password : String}
    {Q : Except Exc User → World → Prop} (hQ : ∀ r, Accepts P op fs Q r) :
    Conducts P D op fs Q (loginWithEmail lib email password) := by
  refine .quiet hP rfl fun user _ => ?_
  split
  · exact .raise hP (hQ _)
  split
  · exact .raise hP (hQ _)
  split
  · exact .raise hP (hQ _)
  · exact .pure hP (hQ _)

theorem conducts_changePassword (hP : P.Valid D) {lib : Library}
    {userId oldPassword newPassword : String} {Q : Except Exc User → World → Prop}
    (hQ : ∀ r, Accepts P (.changePassword userId oldPassword newPassword) [.calm] Q r) :
    Conducts P D (.changePassword userId oldPassword newPassword) [.calm] Q
      (changePassword lib userId oldPassword newPassword) := by
  refine .ask hP rfl fun user _ => ?_
  cases user with
  | none => exact .inl (.raise hP (hQ _))
  | some user =>
    refine .inr ⟨_, _, .owner, by simp, ?_⟩
    have hfail : ∀ {e}, Conducts P D (.changePassword userId oldPassword newPassword)
        [.owner user, .calm] Q (.raise e) := .raise hP ((hQ _).weaken (by simp))
    dsimp only
    split
    · exact hfail
    split
    · exact hfail
    refine .bind hP (conducts_hashPassword hP fun newHash => .next ?_)
    refine .perform hP (fun w _ hf => ⟨⟨_, _, _, rfl⟩, _, hf _ (by simp), rfl⟩) fun _ _ => ?_
    exact ⟨[.calm], by simpa using .of_mem (by simp) (.inl rfl), .pure hP (hQ _)⟩

theorem conducts_loginOrRegisterWithHf (hP : P.Valid D) {code redirectUri : String}
    {Q : Except Exc User → World → Prop}
    (hQ : ∀ r, Accepts P (.loginOrRegisterWithHf code redirectUri) [.calm] Q r) :
    Conducts P D (.loginOrRegisterWithHf code redirectUri) [.calm] Q
      (loginOrRegisterWithHf code redirectUri) := by
  refine .quiet hP rfl fun r _ => .ofExcept hP (fun hfUser _ => ?_) fun e _ => hQ _
  refine .quiet hP rfl fun existing _ => ?_
  split
  · exact .pure hP (hQ _)
  refine .quiet hP rfl fun id _ => ?_
  refine .now hP (by simp) fun createdAt => ⟨[], _, .time, by simp, ?_⟩
  exact conducts_create hP .huggingface (by simp) (hQ _)

end AuthService

namespace TimeoutService

/-- The candidates that are left are known as they were read. -/
theorem conducts_failTimedOut (hP : P.Valid D) {now : ℤ} {jobs : List Job}
    {Q : Except Exc (List Job) → World → Prop} (hnodup : (jobs.map Job.id).Nodup)
    (hQ : ∀ r, Accepts P .timeoutSweep [.calm] Q r) :
    Conducts P D .timeoutSweep (.time now :: .calm :: jobs.map (.job .read)) Q
      (failTimedOut now jobs) := by
  induction jobs generalizing Q with
  | nil => exact .pure hP ((hQ _).weaken (by simp))
  | cons job jobs ih =>
    rw [List.map_cons, List.nodup_cons] at hnodup
    unfold failTimedOut
    split
    · rename_i htimeout
      refine .ofExcept hP (fun failed hfailed => ?_) fun e _ => (hQ _).weaken (by simp)
      obtain ⟨-, rfl⟩ := transition_eq_ok hfailed
      refine .write hP jobs (.timeOut htimeout) trivial (by simp) (by simp) (by simp) (by simp)
        (by simp)
        (fun other hother => ⟨by simp [hother], ne_of_not_mem_ids hnodup.1 hother⟩) ?_
      refine .bind hP ((ih hnodup.2 fun r => ?_).weaken fun f => List.mem_cons_of_mem _)
      cases r with
      | ok failedJobs => exact .next (.pure hP (hQ _))
      | error e => exact hQ (.error e)
    · exact (ih hnodup.2 hQ).weaken (by simp +contextual)

theorem conducts_checkAndFailTimedOutJobs (hP : P.Valid D)
    {Q : Except Exc (List Job) → World → Prop}
    (hQ : ∀ r, Accepts P .timeoutSweep [.calm] Q r) :
    Conducts P D .timeoutSweep [.calm] Q checkAndFailTimedOutJobs := by
  refine .now hP (by simp) fun now => ⟨_, _, .time, by simp, ?_⟩
  refine .list hP fun jobs hjobs => ?_
  exact conducts_failTimedOut hP hjobs.nodup_of_listed hQ

end TimeoutService

end

end TrainVla
