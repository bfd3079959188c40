import TrainVla.System.BackendConduct
import TrainVla.Interaction.Outcomes

/-! What the operations raise: exceptions of what they call and exceptions of their own, but
never that of the state machine, and never that of a missing owner. -/
namespace TrainVla

open Interaction

/-- The exceptions that would reveal a broken invariant of the services. -/
def Exc.guard : Exc → Bool
  | invalidTransition _ _ | userMissing _ => true
  | _ => false

/-- What is outside of the services does not raise their exceptions. -/
def Choice.Ordinary (o : Choice) : Prop := ∀ e ∈ o.fault, e.guard = false

instance : DecidablePred Choice.Ordinary := fun _ => inferInstanceAs (Decidable (∀ _ ∈ _, _))

/-- Neither do the libraries. -/
structure Library.Ordinary (lib : Library) : Prop where
  zipInfolist : ∀ data e, lib.zipInfolist data = .error e → e.guard = false
  zipRead : ∀ data name e, lib.zipRead data name = .error e → e.guard = false
  jsonLoads : ∀ text e, lib.jsonLoads text = .error e → e.guard = false

/-- The answers that the world gives if what is outside behaves. -/
def Deployment.Admits (D : Deployment) (c : Call) (r : c.Resp) : Prop :=
  ∃ o w w', Choice.Ordinary o ∧ World.exec D.steady o w c = some (r, w')

def Plain {α : Type} (r : Except Exc α) : Prop := ∀ e, r = .error e → e.guard = false

/-- No exception that this program raises reveals a broken invariant. -/
def RaisesPlain (D : Deployment) {α : Type} (p : Service α) : Prop := Yields D.Admits Plain p

section

variable {D : Deployment} {α β : Type}

theorem Deployment.Admits.possible {c : Call} {r : c.Resp} (h : D.Admits c r) : D.Possible c r := by
  obtain ⟨o, w, w', -, he⟩ := h
  exact ⟨o, w, w', he⟩

theorem plain_ok (a : α) : Plain (.ok a : Except Exc α) := fun _ h => by cases h

theorem plain_error {e : Exc} (h : e.guard = false) : Plain (.error e : Except Exc α) := by
  intro e' he
  rwa [← Except.error.inj he]

theorem Plain.bind {r : Except Exc α} {f : α → Except Exc β} (hr : Plain r)
    (hf : ∀ a, Plain (f a)) : Plain (r >>= f) := by
  cases r with
  | ok a => exact hf a
  | error e => exact plain_error (hr e rfl)

theorem Plain.of_answer {r r' : Except Exc α} {w w' : World} (hr : Plain r)
    (h : some (r, w) = some (r', w')) : Plain r' := by
  rwa [← (Prod.mk.inj (Option.some.inj h)).1]

theorem Choice.Ordinary.outcome {o : Choice} (h : o.Ordinary) (a : α) : Plain (o.outcome a) := by
  unfold Choice.outcome
  intro e he
  cases hfault : o.fault with
  | none =>
    rw [hfault] at he
    cases he
  | some e' =>
    rw [hfault] at he
    rw [← Except.error.inj he]
    exact h e' hfault

namespace RaisesPlain

theorem pure (a : α) : RaisesPlain D (Pure.pure a) := Yields.pure (plain_ok a)

theorem raise {e : Exc} (h : e.guard = false) : RaisesPlain D (.raise e : Service α) :=
  Yields.raise (plain_error h)

theorem perform {c : Call} {k : c.Resp → Service α} (h : ∀ r, D.Admits c r → RaisesPlain D (k r)) :
    RaisesPlain D (TrainVla.perform c >>= k) := Yields.perform h

theorem last (c : Call) : RaisesPlain D (TrainVla.perform c) := Yields.last fun r _ => plain_ok r

theorem bind {p : Service α} {f : α → Service β} (hp : RaisesPlain D p) (hf : ∀ a, RaisesPlain D (f a)) :
    RaisesPlain D (p >>= f) := by
  refine Yields.bind (Yields.mono hp fun r hr => ?_)
  cases r with
  | ok a => exact hf a
  | error e => exact plain_error (hr e rfl)

theorem attempt {p : Service α} {f : Except Exc α → Service β} (hp : RaisesPlain D p)
    (hf : ∀ r, Plain r → RaisesPlain D (f r)) : RaisesPlain D (p.attempt >>= f) :=
  Yields.bind (Yields.attempt (Yields.mono hp hf))

theorem ofExcept {r : Except Exc α} {f : α → Service β} (hr : Plain r)
    (hf : ∀ a, r = .ok a → RaisesPlain D (f a)) : RaisesPlain D (Prog.ofExcept r >>= f) :=
  Yields.ofExcept hf fun e he => plain_error (hr e he)

theorem outcome {r : Except Exc α} (hr : Plain r) : RaisesPlain D (Prog.ofExcept r) :=
  Yields.outcome hr

end RaisesPlain

end

theorem plain_repoFiles (w : World) (repoId : String) : Plain (w.repoFiles repoId) := by
  unfold World.repoFiles
  split
  · exact plain_ok _
  · exact plain_error rfl

theorem plain_kill (cs : Containers) (containerId : String) : Plain (cs.kill containerId) := by
  unfold Containers.kill
  split
  · exact plain_ok _
  · exact plain_ok _
  · exact plain_error rfl

/-! The world itself raises nothing but what the environment puts into its choices. -/
namespace Deployment.Admits

variable {D : Deployment} {purpose : ReadPurpose} {objectPath repoId dirName source target : String}
  {jobId containerId code redirectUri pathInRepo : String} {data : Bytes}

theorem plain_open {r : Except Exc Bytes}
    (h : D.Admits (.storageOpenReadStream purpose objectPath) r) : Plain r := by
  obtain ⟨o, w, w', -, he⟩ := h
  unfold World.exec at he
  dsimp only at he
  split at he
  · exact (plain_ok _).of_answer he
  · exact (plain_error rfl).of_answer he

theorem plain_exchange {r : Except Exc HFOAuthUser}
    (h : D.Admits (.hfExchangeCode code redirectUri) r) : Plain r := by
  obtain ⟨o, w, w', ho, he⟩ := h
  exact (ho.outcome _).of_answer he

theorem plain_extractAll {r : Except Exc Unit} (h : D.Admits (.extractAll jobId data) r) :
    Plain r := by
  obtain ⟨o, w, w', ho, he⟩ := h
  exact (ho.outcome _).of_answer he

theorem plain_listRepoFiles {r : Except Exc (List String)}
    (h : D.Admits (.hubListRepoFiles repoId) r) : Plain r := by
  obtain ⟨o, w, w', -, he⟩ := h
  rw [← (Prod.mk.inj (Option.some.inj he)).1]
  have hfiles := plain_repoFiles w repoId
  cases hrepo : w.repoFiles repoId with
  | ok files => exact plain_ok _
  | error e => exact plain_error (hfiles e hrepo)

theorem plain_repoFileBytes {r : Except Exc Bytes}
    (h : D.Admits (.hubGetRepoFileBytes repoId pathInRepo) r) : Plain r := by
  obtain ⟨o, w, w', -, he⟩ := h
  rw [← (Prod.mk.inj (Option.some.inj he)).1]
  have hfiles := plain_repoFiles w repoId
  cases hrepo : w.repoFiles repoId with
  | error e => exact plain_error (hfiles e hrepo)
  | ok files =>
    unfold Except.bind
    dsimp only
    split
    · exact plain_ok _
    · exact plain_error rfl

theorem plain_download {r : Except Exc Unit} (h : D.Admits (.hubDownloadDataset repoId dirName) r) :
    Plain r := by
  obtain ⟨o, w, w', ho, he⟩ := h
  have hfiles := plain_repoFiles w repoId
  unfold World.exec at he
  dsimp only at he
  split at he
  · rename_i e hrepo
    exact (plain_error (hfiles e hrepo)).of_answer he
  · rename_i e hrepo hfault
    exact (plain_error (ho e hfault)).of_answer he
  · exact (plain_ok _).of_answer he

theorem plain_replace {r : Except Exc Unit} (h : D.Admits (.cacheReplace source target) r) :
    Plain r := by
  obtain ⟨o, w, w', ho, he⟩ := h
  unfold World.exec at he
  dsimp only at he
  split at he
  · rename_i e hfault
    exact (plain_error (ho e hfault)).of_answer he
  · exact (plain_error rfl).of_answer he
  · split at he
    · exact (plain_error rfl).of_answer he
    · exact (plain_ok _).of_answer he

theorem plain_exists {r : Except Exc Bool} (h : D.Admits (.cacheExists name) r) : Plain r := by
  obtain ⟨o, w, w', ho, he⟩ := h
  exact (ho.outcome _).of_answer he

theorem plain_touch {r : Except Exc Unit} (h : D.Admits (.cacheTouch name) r) : Plain r := by
  obtain ⟨o, w, w', ho, he⟩ := h
  unfold World.exec at he
  dsimp only at he
  split at he
  · rename_i e hfault
    exact (plain_error (ho e hfault)).of_answer he
  · exact (plain_ok _).of_answer he
  · exact (plain_ok _).of_answer he

theorem plain_mkdir {r : Except Exc Unit} (h : D.Admits .cacheMkdir r) : Plain r := by
  obtain ⟨o, w, w', ho, he⟩ := h
  exact (ho.outcome _).of_answer he

theorem plain_iterdir {r : Except Exc (List CacheChild)} (h : D.Admits .cacheIterdir r) :
    Plain r := by
  obtain ⟨o, w, w', ho, he⟩ := h
  exact (ho.outcome _).of_answer he

theorem plain_kill {r : Except Exc Unit} (h : D.Admits (.dockerKill containerId) r) : Plain r := by
  obtain ⟨o, w, w', -, he⟩ := h
  have hkill := TrainVla.plain_kill w.containers containerId
  unfold World.exec at he
  dsimp only at he
  split at he
  · exact (plain_ok _).of_answer he
  · rename_i e heq
    exact (plain_error (hkill e heq)).of_answer he

theorem plain_makeJobDir {r : Except Exc Unit} (h : D.Admits (.makeJobDir jobId) r) : Plain r := by
  obtain ⟨o, w, w', ho, he⟩ := h
  unfold World.exec at he
  dsimp only at he
  split at he
  · rename_i e hfault
    exact (plain_error (ho e hfault)).of_answer he
  · exact (plain_ok _).of_answer he

end Deployment.Admits

namespace JobService

theorem raisesPlain_createJob {D : Deployment} (userId : String) (policy : PolicyType)
    (sourceType : SourceType) (sourceRef : String) (trainingSteps : ℤ) :
    RaisesPlain D (createJob userId policy sourceType sourceRef trainingSteps) := by
  unfold createJob
  dsimp only
  split
  · exact .raise rfl
  refine .perform fun user _ => ?_
  cases user with
  | none => exact .raise rfl
  | some user =>
    refine .perform fun jobs _ => .perform fun today _ => ?_
    split
    · exact .raise rfl
    · exact .perform fun now _ => .perform fun id _ => .perform fun _ _ => .pure _

theorem plain_viewOf (queuedIds : List String) (job : Job) : Plain (viewOf queuedIds job) := by
  unfold viewOf
  split
  · split
    · exact plain_ok _
    · exact plain_error rfl
  · exact plain_ok _

theorem plain_views (queuedIds : List String) (jobs : List Job) :
    Plain (jobs.mapM (viewOf queuedIds)) := by
  induction jobs with
  | nil => exact plain_ok _
  | cons job jobs ih =>
    rw [List.mapM_cons]
    exact (plain_viewOf queuedIds job).bind fun view => ih.bind fun views => plain_ok _

theorem raisesPlain_listJobsForUser {D : Deployment} (userId : String) :
    RaisesPlain D (listJobsForUser userId) :=
  .perform fun _ _ => .perform fun _ _ => .outcome (plain_views _ _)

theorem raisesPlain_getJob {D : Deployment} (jobId : String) : RaisesPlain D (getJob jobId) := by
  refine .perform fun job _ => ?_
  cases job with
  | none => exact .raise rfl
  | some job => exact .pure job

theorem plain_requestCancel (job : Job) (now : ℤ) : Plain (TrainVla.requestCancel job now) := by
  unfold TrainVla.requestCancel
  split
  · exact plain_ok _
  · exact plain_error rfl

theorem raisesPlain_requestCancel {D : Deployment} (userId jobId : String) :
    RaisesPlain D (requestCancel userId jobId) := by
  refine .bind (raisesPlain_getJob jobId) fun job => ?_
  split
  · exact .raise rfl
  · exact .perform fun now _ => .ofExcept (plain_requestCancel job now) fun updated _ =>
      .perform fun _ _ => .pure _

theorem raisesPlain_getDownloadUrl {D : Deployment} (userId jobId : String) :
    RaisesPlain D (getDownloadUrl userId jobId) := by
  refine .bind (raisesPlain_getJob jobId) fun job => ?_
  split
  · exact .raise rfl
  · split
    · split
      · exact .raise rfl
      · exact .last _
    · exact .raise rfl

end JobService

namespace UploadService

variable {D : Deployment}

theorem raisesPlain_createUploadTarget (userId : String) (given : Option String) :
    RaisesPlain D (createUploadTarget userId given) := by
  have hurl : ∀ uploadId, RaisesPlain D (do
      let url ← perform (.storageGenerateUploadUrl (objectPath userId uploadId)
        "application/zip" uploadUrlExpiresInSeconds)
      pure (uploadId, url)) := fun _ => .perform fun _ _ => .pure _
  unfold createUploadTarget
  cases given with
  | none => exact .perform fun id _ => hurl id
  | some id =>
    dsimp only
    split
    · exact .perform fun id _ => hurl id
    · exact hurl id

theorem raisesPlain_reject {α : Type} (path : String) (message : Option String) :
    RaisesPlain D (reject path message : Service α) := .perform fun _ _ => .raise rfl

theorem raisesPlain_readZipEntries (hlib : D.lib.Ordinary) (path : String) :
    RaisesPlain D (readZipEntries D.lib path) :=
  .perform fun _ hr => .ofExcept hr.plain_open fun data _ => .outcome (hlib.zipInfolist data)

theorem plain_parseInfoJson (hlib : D.lib.Ordinary) (raw : Bytes) :
    Plain (parseInfoJson D.lib.jsonLoads raw) := by
  unfold parseInfoJson
  split
  · exact plain_ok _
  · exact plain_error rfl
  · exact plain_error rfl
  · rename_i e _ _ h
    exact plain_error (hlib.jsonLoads raw e h)

theorem raisesPlain_readInfoJson (hlib : D.lib.Ordinary) (path : String) :
    RaisesPlain D (readInfoJson D.lib path) := by
  refine .bind ?_ fun raw => .outcome (plain_parseInfoJson hlib raw)
  exact .perform fun _ hr => .ofExcept hr.plain_open fun data _ =>
    .ofExcept (hlib.zipInfolist data) fun _ _ => .outcome (hlib.zipRead data infoJsonPath)

theorem plain_checkPolicyCompatibility (info : Json) (policy : PolicyType) :
    Plain (checkPolicyCompatibility info policy) := by
  unfold checkPolicyCompatibility
  split
  · split
    · exact plain_ok _
    · exact plain_ok _
  · exact plain_error rfl

theorem raisesPlain_confirmContent (hlib : D.lib.Ordinary) (userId path : String)
    (policy : PolicyType) (trainingSteps : ℤ) :
    RaisesPlain D (confirmContent D.lib userId path policy trainingSteps) := by
  refine .attempt (raisesPlain_readInfoJson hlib path) fun r hr => ?_
  split
  · exact raisesPlain_reject path _
  · exact raisesPlain_reject path _
  · exact raisesPlain_reject path _
  · exact .raise (hr _ rfl)
  · refine .ofExcept (plain_checkPolicyCompatibility _ policy) fun result _ => ?_
    split
    · exact raisesPlain_reject path _
    · exact JobService.raisesPlain_createJob userId policy .zipUpload path trainingSteps

theorem raisesPlain_confirmZipUpload (hlib : D.lib.Ordinary) (userId uploadId : String)
    (policy : PolicyType) (trainingSteps : ℤ) :
    RaisesPlain D (confirmZipUpload D.lib D.limits userId uploadId policy trainingSteps) := by
  refine .perform fun found _ => ?_
  split
  · exact .raise rfl
  refine .attempt (raisesPlain_readZipEntries hlib _) fun r hr => ?_
  split
  · exact raisesPlain_reject _ _
  · exact .raise (hr _ rfl)
  · dsimp only
    split
    · exact raisesPlain_reject _ _
    · split
      · exact raisesPlain_reject _ _
      · exact raisesPlain_confirmContent hlib userId _ policy trainingSteps

theorem raisesPlain_submitHfDataset (hlib : D.lib.Ordinary) (userId repoId : String)
    (policy : PolicyType) (trainingSteps : ℤ) :
    RaisesPlain D (submitHfDataset D.lib userId repoId policy trainingSteps) := by
  have hread : RaisesPlain D (readRepoInfoJson D.lib repoId) :=
    .perform fun _ hr => .ofExcept hr.plain_repoFileBytes fun raw _ =>
      .outcome (plain_parseInfoJson hlib raw)
  refine .perform fun found _ => ?_
  split
  · exact .raise rfl
  refine .perform fun names hnames => .ofExcept hnames.plain_listRepoFiles fun _ _ => ?_
  dsimp only
  split
  · exact .raise rfl
  refine .attempt hread fun r hr => ?_
  split
  · exact .raise rfl
  · exact .raise rfl
  · exact .raise (hr _ rfl)
  · refine .ofExcept (plain_checkPolicyCompatibility _ policy) fun result _ => ?_
    split
    · exact .raise rfl
    · exact JobService.raisesPlain_createJob userId policy .hfHub repoId trainingSteps

end UploadService

namespace AuthService

variable {D : Deployment}

theorem raisesPlain_hashPassword (password : String) :
    RaisesPlain D (hashPassword D.lib password) := .perform fun _ _ => .pure _

theorem raisesPlain_registerWithEmail (email password captchaToken : String) :
    RaisesPlain D (registerWithEmail D.lib email password captchaToken) := by
  refine .perform fun captcha _ => ?_
  split
  · exact .raise rfl
  refine .perform fun existing _ => ?_
  split
  · exact .raise rfl
  · exact .perform fun id _ => .bind (raisesPlain_hashPassword password) fun _ =>
      .perform fun _ _ => .perform fun _ _ => .pure _

theorem raisesPlain_loginWithEmail (email password : String) :
    RaisesPlain D (loginWithEmail D.lib email password) := by
  refine .perform fun user _ => ?_
  split
  · exact .raise rfl
  · split
    · exact .raise rfl
    · split
      · exact .raise rfl
      · exact .pure _

theorem raisesPlain_changePassword (userId oldPassword newPassword : String) :
    RaisesPlain D (changePassword D.lib userId oldPassword newPassword) := by
  refine .perform fun user _ => ?_
  split
  · exact .raise rfl
  · split
    · exact .raise rfl
    · split
      · exact .raise rfl
      · exact .bind (raisesPlain_hashPassword newPassword) fun _ => .perform fun _ _ => .pure _

theorem raisesPlain_loginOrRegisterWithHf (code redirectUri : String) :
    RaisesPlain D (loginOrRegisterWithHf code redirectUri) := by
  refine .perform fun r hr => .ofExcept hr.plain_exchange fun profile _ => .perform fun user _ => ?_
  split
  · exact .pure _
  · exact .perform fun _ _ => .perform fun _ _ => .perform fun _ _ => .pure _

end AuthService

theorem plain_transition {job : Job} {target : JobStatus} (now : ℤ)
    (h : canTransition job.status target = true) : Plain (transition job target now) := by
  rw [transition_of_can h]
  exact plain_ok _

namespace TimeoutService

variable {D : Deployment}

theorem raisesPlain_failTimedOut (now : ℤ) (jobs : List Job) :
    RaisesPlain D (failTimedOut now jobs) := by
  induction jobs with
  | nil => exact .pure _
  | cons job jobs ih =>
    unfold failTimedOut
    split
    · rename_i htimeout
      have hcan : canTransition job.status .failed = true := by
        rcases status_of_isTimedOut htimeout with hs | hs <;> rw [hs] <;> rfl
      exact .ofExcept (plain_transition now hcan) fun _ _ => .perform fun _ _ =>
        .bind ih fun _ => .pure _
    · exact ih

theorem raisesPlain_checkAndFailTimedOutJobs : RaisesPlain D checkAndFailTimedOutJobs :=
  .perform fun now _ => .perform fun jobs _ => raisesPlain_failTimedOut now jobs

end TimeoutService

end TrainVla
