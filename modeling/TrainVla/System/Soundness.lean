import TrainVla.System.WorkerConduct
import TrainVla.World.Frame
import TrainVla.Interaction.Soundness

/-! From a protocol to the runs of the system. -/
namespace TrainVla

open Interaction

/-- The calls after which a document is still known. -/
inductive KeepsDocument (st : Stage) (job : Job) : Call → Prop
  | quiet {c : Call} (hjobs : c.writesJobs = false) (husers : c.writesUsers = false)
    (hcontainers : c.movesContainers = false) (hdir : c.removesJobDir = false) : KeepsDocument st job c
  | updated {seen new : Job} (hst : st = .read) (hne : job.id ≠ new.id) :
    KeepsDocument st job (.jobsUpdate seen new)
  | killed {containerId : String} (hst : st = .read) : KeepsDocument st job (.dockerKill containerId)
  | removed {jobId : String} (hst : st = .read ∨ st = .dead) :
    KeepsDocument st job (.removeJobDir jobId)

theorem keepsDocument_of_survives {c : Call} {st : Stage} {job : Job} (h : Survives c (.job st job)) :
    KeepsDocument st job c := by
  cases c with
  | jobsUpdate seen new =>
    cases st with
    | read => exact .updated rfl h
    | _ => exact h.elim
  | dockerKill containerId =>
    cases st with
    | read => exact .killed rfl
    | _ => exact h.elim
  | removeJobDir jobId =>
    cases st with
    | read => exact .removed (.inl rfl)
    | dead => exact .removed (.inr rfl)
    | _ => simp [Survives] at h
  | usersUpdate charge seen user => cases charge <;> simp [Survives] at h
  | jobsCreate new => simp [Survives] at h
  | usersCreate user => simp [Survives] at h
  | dockerRun spec => exact h.elim
  | _ => exact .quiet rfl rfl rfl rfl

namespace Protocol

variable {P : Protocol} {D : Deployment} {permit : SysLabel → Prop}

/-- At the end of an operation nothing is unsettled, and a cancellation that was accepted is
known to the one who asked for it. -/
def post (P : Protocol) (op : Op) (r : Except Exc Unit) (w : World) : Prop :=
  P.holds op .calm w ∧ ∀ userId jobId, op = .requestCancel userId jobId → r = .ok () →
    ∃ job, job.id = jobId ∧ job.cancelRequested = true ∧ P.holds op (.job .read job) w

theorem accepts_post {op : Op} {r : Except Exc Unit}
    (hr : ∀ userId jobId, op = .requestCancel userId jobId → r ≠ .ok ()) :
    Accepts P op [.calm] (P.post op) r := by
  intro w _ hf
  exact ⟨hf _ (by simp), fun userId jobId ho hok => absurd hok (hr userId jobId ho)⟩

/-- What is accepted whatever the result may be discarded. -/
theorem conducts_discard (hP : P.Valid D) {op : Op} {α : Type} {p : Service α}
    (hop : ∀ userId jobId, op ≠ .requestCancel userId jobId)
    (h : ∀ {Q : Except Exc α → World → Prop}, (∀ r, Accepts P op [.calm] Q r) →
      Conducts P D op [.calm] Q p) :
    Conducts P D op [.calm] (P.post op) p.discard := by
  refine .bind hP (h fun r => ?_)
  have hpost : ∀ r, Accepts P op [.calm] (P.post op) r :=
    fun r => accepts_post fun userId jobId ho => absurd ho (hop userId jobId)
  cases r with
  | ok a => exact .next (.pure hP (hpost _))
  | error e => exact hpost (.error e)

/-- Every operation of the system, walked through once and for all protocols. -/
theorem Valid.safe (hP : P.Valid D) (op : Op) {w : World} (hw : P.holds op .calm w) :
    Safe (World.exec D.steady) (P.outline D) op (P.post op) (op.code D) w := by
  suffices h : Conducts P D op [.calm] (P.post op) (op.code D) from h w (by simpa using hw)
  cases op with
  | createJob userId policy sourceType sourceRef trainingSteps =>
    exact conducts_discard hP (by simp) fun hQ =>
      JobService.conducts_createJob hP rfl rfl (by simp) (by simp [Survives]) (by simp [Op.direct])
        (by simp [Op.direct]) hQ
  | createUploadTarget userId uploadId =>
    exact conducts_discard hP (by simp) fun hQ => UploadService.conducts_createUploadTarget hP hQ
  | confirmZipUpload userId uploadId policy trainingSteps =>
    exact conducts_discard hP (by simp) fun hQ => UploadService.conducts_confirmZipUpload hP hQ
  | submitHfDataset userId repoId policy trainingSteps =>
    exact conducts_discard hP (by simp) fun hQ => UploadService.conducts_submitHfDataset hP rfl rfl hQ
  | listJobs userId =>
    exact conducts_discard hP (by simp) fun hQ => JobService.conducts_listJobsForUser hP hQ
  | requestCancel userId jobId =>
    refine .bind hP (JobService.conducts_requestCancel hP (fun job hid hflag => ?_) fun e => ?_)
    · refine .next (.pure hP fun w _ hf => ⟨hf _ (by simp), fun u j ho _ => ?_⟩)
      obtain ⟨rfl, rfl⟩ := Op.requestCancel.inj ho
      exact ⟨job, hid, hflag, hf _ (by simp)⟩
    · exact accepts_post (by simp)
  | getDownloadUrl userId jobId =>
    exact conducts_discard hP (by simp) fun hQ => JobService.conducts_getDownloadUrl hP hQ
  | registerWithEmail email password captchaToken =>
    exact conducts_discard hP (by simp) fun hQ => AuthService.conducts_registerWithEmail hP hQ
  | loginWithEmail email password =>
    exact conducts_discard hP (by simp) fun hQ => AuthService.conducts_loginWithEmail hP hQ
  | changePassword userId oldPassword newPassword =>
    exact conducts_discard hP (by simp) fun hQ => AuthService.conducts_changePassword hP hQ
  | loginOrRegisterWithHf code redirectUri =>
    exact conducts_discard hP (by simp) fun hQ => AuthService.conducts_loginOrRegisterWithHf hP hQ
  | timeoutSweep =>
    exact conducts_discard hP (by simp) fun hQ =>
      TimeoutService.conducts_checkAndFailTimedOutJobs hP hQ
  | reconcile =>
    exact conducts_discard hP (by simp) fun hQ => OrphanReconciler.conducts_reconcile hP hQ
  | pollerTick =>
    exact conducts_discard hP (by simp) fun hQ => JobPoller.conducts_tick hP hQ
  | completionTick =>
    exact conducts_discard hP (by simp) fun hQ => JobCompletion.conducts_completionTick hP hQ

/-- The obligations of a protocol whose schedules obey `permit`. -/
structure Sound (P : Protocol) (D : Deployment) (permit : SysLabel → Prop) : Prop extends
    P.Valid D where
  exec : ∀ op o w c r w', P.inv w → P.pre D op w c → P.cond op w c →
    World.exec D.steady o w c = some (r, w') →
    P.inv w' ∧ ∀ op', Overlap D.system permit op op' → P.rely op' w w'
  occur : ∀ v w w', permit (.event v) → P.inv w → World.occur v w = some w' →
    P.inv w' ∧ ∀ op', InFlight D.system permit op' → P.rely op' w w'

theorem Sound.steps (hP : P.Sound D permit) : (P.outline D).Steps D.system permit where
  preorders := hP.preorders
  exec op o w c r w' _ := hP.exec op o w c r w'
  occur := hP.occur

theorem Sound.outline (hP : P.Sound D permit)
    (hcalm : ∀ op w, P.inv w → P.holds op .calm w) :
    (P.outline D).Sound D.system permit P.post where
  toSteps := hP.steps
  code op _ w hw := hP.safe op (hcalm op w hw)

end Protocol

end TrainVla
