import TrainVla.System.LockConduct

/-! The walk through the endpoints and the startup of a worker. -/
namespace TrainVla

open Interaction

variable {P : Protocol} {D : Deployment} {op : Op} {fs : List Fact} {α β : Type}

attribute [local simp] Survives

/-- A part whose outcome does not matter, and what follows it. -/
theorem conducts_then (hP : P.Valid D) {Q : Except Exc β → World → Prop} {p : Service α}
    {f : α → Service β}
    (hp : ∀ {Q' : Except Exc α → World → Prop}, (∀ r, Accepts P op fs Q' r) → Conducts P D op fs Q' p)
    (hf : ∀ a, Conducts P D op fs Q (f a)) (herr : ∀ e, Accepts P op fs Q (.error e)) :
    Conducts P D op fs Q (p >>= f) := by
  refine .bind hP (hp fun r => ?_)
  cases r with
  | ok a => exact .next (hf a)
  | error e => exact herr e

/-- Reading the clock, where nothing is learnt from it. -/
theorem conducts_now (hP : P.Valid D) {Q : Except Exc α → World → Prop} {k : ℤ → Service α}
    (hfs : ∀ f ∈ fs, Survives .now f) (hk : ∀ t, Conducts P D op fs Q (k t)) :
    Conducts P D op fs Q (perform .now >>= k) :=
  .allowed hP (fun _ _ => trivial) hfs fun t _ => hk t

namespace DiskManager

theorem conducts_cleanupChildren (hP : P.Valid D) {olderThanSeconds now : ℤ}
    {children : List CacheChild} {Q : Except Exc (List String) → World → Prop}
    (hQ : ∀ r, Accepts P op fs Q r) :
    Conducts P D op fs Q (cleanupChildren olderThanSeconds now children) := by
  induction children generalizing Q with
  | nil => exact .pure hP (hQ _)
  | cons child children ih =>
    unfold cleanupChildren
    split
    · exact ih hQ
    split
    · exact .quiet hP rfl fun _ _ => conducts_then hP ih (fun removed => .pure hP (hQ _))
        fun e => hQ (.error e)
    · exact ih hQ

theorem conducts_cleanupStaleTmpDirs (hP : P.Valid D) {olderThanSeconds : ℤ}
    {Q : Except Exc (List String) → World → Prop} (hfs : ∀ f ∈ fs, Survives .now f)
    (hQ : ∀ r, Accepts P op fs Q r) :
    Conducts P D op fs Q (cleanupStaleTmpDirs olderThanSeconds) := by
  refine conducts_now hP hfs fun now => .quiet hP rfl fun r _ => ?_
  exact .ofExcept hP (fun children _ => conducts_cleanupChildren hP hQ) fun e _ => hQ (.error e)

end DiskManager

theorem WorkerMain.conducts_startup (hP : P.Valid D)
    {Q : Except Exc OrphanReconciler.ReconciliationResult → World → Prop}
    (hQ : ∀ r, Accepts P .reconcile [.calm] Q r) :
    Conducts P D .reconcile [.calm] Q (startup D.settings) :=
  conducts_then hP (fun h => DiskManager.conducts_cleanupStaleTmpDirs hP (by simp) h)
    (fun _ => OrphanReconciler.conducts_reconcile hP hQ) fun e => hQ (.error e)

namespace Api

variable {lib : ApiLibrary} {settings : BackendSettings}

theorem conducts_tokenFor (hP : P.Valid D) {userId : String} {Q : Except Exc TokenOut → World → Prop}
    (hfs : ∀ f ∈ fs, Survives .now f) (hQ : ∀ r, Accepts P op fs Q r) :
    Conducts P D op fs Q (tokenFor lib settings userId) :=
  conducts_now hP hfs fun _ => .pure hP (hQ _)

theorem conducts_listMyJobs (hP : P.Valid D) {userId : String}
    {Q : Except Exc (List JobOut) → World → Prop} (hQ : ∀ r, Accepts P op fs Q r) :
    Conducts P D op fs Q (listMyJobs lib userId) :=
  conducts_then hP (fun h => JobService.conducts_listJobsForUser hP h)
    (fun _ => .outcome hP (hQ _)) fun e => hQ (.error e)

theorem conducts_jobOutFor (hP : P.Valid D) {userId jobId : String}
    {Q : Except Exc JobOut → World → Prop} (hQ : ∀ r, Accepts P op fs Q r) :
    Conducts P D op fs Q (jobOutFor lib userId jobId) := by
  refine conducts_then hP (fun h => JobService.conducts_listJobsForUser hP h) (fun views => ?_)
    fun e => hQ (.error e)
  exact .ofExcept hP (fun view _ => .outcome hP (hQ _)) fun e _ => hQ (.error e)

/-- What a request may do comes after the user is known, and the user is the one whom the token
names. -/
theorem conducts_authenticated {I : Installation} (hP : P.Valid D) {authorization : Option String}
    {Q : Except Exc α → World → Prop} {endpoint : String → Service α}
    (hfs : ∀ f ∈ fs, Survives .now f) (herr : ∀ e, Accepts P op fs Q (.error e))
    (h : Conducts P D op fs Q (endpoint (I.claimedOr authorization))) :
    Conducts P D op fs Q (authenticated I.api I.backend authorization endpoint) := by
  unfold authenticated
  rw [getCurrentUserId_eq]
  cases htoken : bearerToken authorization with
  | none => exact .raise hP (herr _)
  | some token =>
    dsimp only
    cases hclaims : I.api.jwt.payload token I.backend.jwtSecret with
    | none => exact .raise hP (herr _)
    | some claims =>
      have hsub : I.claimedOr authorization = claims.sub := by
        simp [Installation.claimedOr, Installation.claimed, htoken, hclaims]
      refine conducts_now hP hfs fun now => .ofExcept hP (fun userId hlet => ?_) fun e _ => herr e
      rw [← (admitClaims_eq_ok hlet).1, ← hsub]
      exact h

end Api

namespace Protocol

variable {I : Installation} {permit : SysLabel → Prop}

/-- At the end of a request nothing is unsettled. -/
def settled (P : Protocol) (op : Op) (_ : Except Exc Unit) (w : World) : Prop := P.holds op .calm w

theorem accepts_settled (r : Except Exc Unit) : Accepts P op [.calm] (P.settled op) r :=
  fun _ _ hf => hf _ (List.mem_singleton_self _)

/-- A request without an answer. -/
theorem conducts_quietly (hP : P.Valid D) {p : Service α}
    (hp : ∀ {Q : Except Exc α → World → Prop}, (∀ r, Accepts P op [.calm] Q r) →
      Conducts P D op [.calm] Q p) : Conducts P D op [.calm] (P.settled op) p.discard :=
  conducts_then hP hp (fun _ => .pure hP (accepts_settled _)) fun e => accepts_settled (.error e)

/-- Every request of the interface and every part of the worker, walked through for all
protocols. -/
theorem Valid.safe_request (hP : P.Valid I.deployment) (r : Request) {w : World}
    (hw : P.holds (r.op I) .calm w) :
    Safe (World.exec I.deployment.steady) (P.outline I.deployment) (r.op I) (P.settled (r.op I))
      (r.code I) w := by
  have hauth : ∀ {authorization : Option String} {endpoint : String → Service Unit},
      Conducts P I.deployment (r.op I) [.calm] (P.settled (r.op I))
        (endpoint (I.claimedOr authorization)) →
      Conducts P I.deployment (r.op I) [.calm] (P.settled (r.op I))
        (Api.authenticated I.api I.backend authorization endpoint) := fun h =>
    Api.conducts_authenticated hP (by simp) (fun e => accepts_settled (.error e)) h
  have hsteps : ∀ {Q : Except Exc JobOut → World → Prop} {trainingSteps : ℤ}
      {rest : Service JobOut}, (∀ r', Accepts P (r.op I) [.calm] Q r') →
      Conducts P I.deployment (r.op I) [.calm] Q rest →
      Conducts P I.deployment (r.op I) [.calm] Q
        (Prog.ofExcept (Api.checkTrainingSteps trainingSteps) >>= fun _ => rest) := fun hQ h =>
    .ofExcept hP (fun _ _ => h) fun e _ => hQ (.error e)
  suffices h : Conducts P I.deployment (r.op I) [.calm] (P.settled (r.op I)) (r.code I) from
    h w (by simpa using hw)
  cases r with
  | register email password captchaToken =>
    exact conducts_quietly hP fun hQ =>
      conducts_then hP (fun h => AuthService.conducts_registerWithEmail hP h)
        (fun _ => Api.conducts_tokenFor hP (by simp) hQ) fun e => hQ (.error e)
  | login email password =>
    exact conducts_quietly hP fun hQ =>
      conducts_then hP (fun h => AuthService.conducts_loginWithEmail hP h)
        (fun _ => Api.conducts_tokenFor hP (by simp) hQ) fun e => hQ (.error e)
  | hfOauthCallback code redirectUri =>
    exact conducts_quietly hP fun hQ =>
      conducts_then hP (fun h => AuthService.conducts_loginOrRegisterWithHf hP h)
        (fun _ => Api.conducts_tokenFor hP (by simp) hQ) fun e => hQ (.error e)
  | changePassword authorization oldPassword newPassword =>
    exact hauth (conducts_quietly hP fun hQ => AuthService.conducts_changePassword hP hQ)
  | createZipUploadTarget authorization =>
    exact hauth (conducts_quietly hP fun hQ => UploadService.conducts_createUploadTarget hP hQ)
  | confirmZipUpload authorization uploadId policy trainingSteps =>
    exact hauth (conducts_quietly hP fun hQ => hsteps hQ <|
      conducts_then hP (fun h => UploadService.conducts_confirmZipUpload hP h)
        (fun _ => Api.conducts_jobOutFor hP hQ) fun e => hQ (.error e))
  | submitHfDataset authorization repoId policy trainingSteps =>
    exact hauth (conducts_quietly hP fun hQ => hsteps hQ <|
      conducts_then hP (fun h => UploadService.conducts_submitHfDataset hP rfl rfl h)
        (fun _ => Api.conducts_jobOutFor hP hQ) fun e => hQ (.error e))
  | listMyJobs authorization =>
    exact hauth (conducts_quietly hP fun hQ => Api.conducts_listMyJobs hP hQ)
  | cancelJob authorization jobId =>
    refine hauth (conducts_quietly hP fun hQ => .bind hP ?_)
    refine JobService.conducts_requestCancel hP (fun job _ _ => .next ?_) fun e => hQ (.error e)
    exact (Api.conducts_jobOutFor hP hQ).weaken (by simp)
  | getDownloadUrl authorization jobId =>
    exact hauth (conducts_quietly hP fun hQ => JobService.conducts_getDownloadUrl hP hQ)
  | checkTimeouts xSchedulerSecret =>
    refine conducts_quietly hP fun hQ => ?_
    unfold Api.checkTimeouts verifySchedulerSecret
    split
    · exact .raise hP (hQ _)
    · show Conducts P I.deployment .timeoutSweep [.calm] _
        (TimeoutService.checkAndFailTimedOutJobs >>= fun failedJobs => pure (failedJobs.map Job.id))
      exact conducts_then hP (fun h => TimeoutService.conducts_checkAndFailTimedOutJobs hP h)
        (fun _ => .pure hP (hQ _)) fun e => hQ (.error e)
  | startup => exact conducts_quietly hP fun hQ => WorkerMain.conducts_startup hP hQ
  | pollerTick => exact conducts_quietly hP fun hQ => JobPoller.conducts_tick hP hQ
  | completionTick => exact conducts_quietly hP fun hQ => JobCompletion.conducts_completionTick hP hQ

/-- What is proved of the operations under a protocol holds of the requests too. -/
theorem Sound.install (hP : P.Sound I.deployment permit)
    (hcalm : ∀ op w, P.inv w → P.holds op .calm w) :
    ((P.outline I.deployment).comap (Request.op I)).Sound I.system
      (fun l => permit (l.map (Request.op I))) fun r => P.settled (r.op I) where
  toSteps := hP.steps.comap I.renames
  code r _ w hw := (hP.safe_request r (hcalm _ w hw)).comap

/-- Runs with any number of worker processes. `permit` is asked about the requests only. -/
theorem Sound.fleet_run (hP : P.Sound I.deployment permit)
    (hcalm : ∀ op w, P.inv w → P.holds op .calm w)
    (hcond : ∀ (r : Request) w c, P.cond (r.op I) w c)
    (hstart : ∀ r : Request, permit (.start (r.op I))) (hwork : ∀ x, permit (.work x))
    (hcrash : permit .crash) {Q : Type} [DecidableEq Q] {w : World}
    {ls : List (FleetLabel Q Request Choice Event)} {rs : List (Record Request Call World)}
    {c : FleetConf Q Request Call Call.Resp Exc WorkerLockError WorkerLock World} (hi : P.inv w)
    (hl : ∀ l, .outer l ∈ ls → permit (l.map (Request.op I)))
    (hr : I.fleet.run (.initial w) ls = some (rs, c)) :
    P.inv c.state ∧ ∀ r ∈ rs,
      (r.map (Request.op I)).Known I.deployment.system (P.outline I.deployment) := by
  obtain ⟨-, a, hrun, hm⟩ := Fleet.run_refines (I.lawful Q) (.initial w) (.initial w) hr
  have hpermit : ∀ l ∈ I.fleet.schedule (.initial w) ls, permit (l.map (Request.op I)) := by
    intro l hmem
    rcases Fleet.mem_schedule hmem with ⟨r, rfl⟩ | ⟨x, rfl⟩ | rfl | houter
    · exact hstart r
    · exact hwork x
    · exact hcrash
    · exact hl l houter
  have hsound := hP.install hcalm
  obtain ⟨hknown, hgood⟩ := hsound.run (.initial hi) hpermit hrun fun r _ _ => hcond _ _ _
  refine ⟨?_, fun r hmem => (hknown r hmem).map I.renames⟩
  rw [← hm.state]
  exact hgood.inv

end Protocol

/-- What the calls of all processes and requests keep, and the environment too. -/
theorem Installation.fleet_states {I : Installation} {J : World → Prop} {Q : Type} [DecidableEq Q]
    {w : World} {ls : List (FleetLabel Q Request Choice Event)}
    {rs : List (Record Request Call World)}
    {c : FleetConf Q Request Call Call.Resp Exc WorkerLockError WorkerLock World}
    (hr : I.fleet.run (.initial w) ls = some (rs, c)) (hrec : ∀ r ∈ rs, J r.before → J r.after)
    (hoccur : ∀ v s s', World.occur v s = some s' → J s → J s') (hw : J w) :
    (∀ r ∈ rs, J r.before) ∧ J c.state := by
  obtain ⟨-, a, hrun, hm⟩ := Fleet.run_refines (I.lawful Q) (.initial w) (.initial w) hr
  obtain ⟨hbefore, hlast⟩ := Machine.run_states hrun hrec hoccur hw
  exact ⟨hbefore, by rw [← hm.state]; exact hlast⟩

end TrainVla
