import TrainVla.System.JobProtocol
import TrainVla.System.JobWrites

/-! Every job document that is ever stored is well formed, however the writers interleave. -/
namespace TrainVla

open Interaction Store

/-- What the fields of a job document say in each status. -/
structure WellFormed (job : Job) : Prop where
  steps : 1 ≤ job.trainingSteps ∧ job.trainingSteps ≤ 20000
  queued : job.status = .queued → job.containerId = none ∧ job.heartbeatAt = none ∧
    job.progress = none ∧ job.checkpointGcsPath = none ∧ job.errorMessage = none
  running : job.status = .initializing ∨ job.status = .training →
    job.heartbeatAt.isSome = true ∧ job.checkpointGcsPath = none ∧ job.errorMessage = none
  initializing : job.status = .initializing → job.progress = none
  completed : job.status = .completed → job.containerId.isSome = true ∧ job.errorMessage = none ∧
    job.checkpointGcsPath = some (JobCompletion.checkpointPath job.id)
  failed : job.status = .failed → job.errorMessage.isSome = true ∧ job.checkpointGcsPath = none
  cancelled : job.status = .cancelled → job.cancelRequested = true ∧ job.checkpointGcsPath = none

namespace WellFormed

theorem checkpoint_of_active {job : Job} (h : WellFormed job) (hactive : job.status.Active) :
    job.checkpointGcsPath = none := by
  cases hs : job.status with
  | queued => exact (h.queued hs).2.2.2.1
  | initializing => exact (h.running (.inl hs)).2.1
  | training => exact (h.running (.inr hs)).2.1
  | _ =>
    rw [hs] at hactive
    exact absurd hactive (by decide)

/-- The documents in each new status, from what is known of the fields. -/
theorem of_failed {job : Job} (hsteps : 1 ≤ job.trainingSteps ∧ job.trainingSteps ≤ 20000)
    (hstatus : job.status = .failed) (herror : job.errorMessage.isSome = true)
    (hcheckpoint : job.checkpointGcsPath = none) : WellFormed job := by
  constructor <;> simp_all

theorem of_cancelled {job : Job} (hsteps : 1 ≤ job.trainingSteps ∧ job.trainingSteps ≤ 20000)
    (hstatus : job.status = .cancelled) (hflag : job.cancelRequested = true)
    (hcheckpoint : job.checkpointGcsPath = none) : WellFormed job := by
  constructor <;> simp_all

theorem of_running {job : Job} (hsteps : 1 ≤ job.trainingSteps ∧ job.trainingSteps ≤ 20000)
    (hstatus : job.status = .initializing ∧ job.progress = none ∨ job.status = .training)
    (hheartbeat : job.heartbeatAt.isSome = true) (hcheckpoint : job.checkpointGcsPath = none)
    (herror : job.errorMessage = none) : WellFormed job := by
  rcases hstatus with ⟨hs, hp⟩ | hs <;> constructor <;> simp_all

theorem of_completed {job : Job} (hsteps : 1 ≤ job.trainingSteps ∧ job.trainingSteps ≤ 20000)
    (hstatus : job.status = .completed) (hcontainer : job.containerId.isSome = true)
    (herror : job.errorMessage = none)
    (hcheckpoint : job.checkpointGcsPath = some (JobCompletion.checkpointPath job.id)) :
    WellFormed job := by
  constructor <;> simp_all

theorem of_newJob {user : User} {jobs : List Job} {today now : ℤ} {job : Job}
    (h : NewJob user jobs today now job) : WellFormed job := by
  have hsteps := validateTrainingSteps_ok.mp h.steps
  have heq := h.eq
  rw [heq]
  constructor
  · exact hsteps
  · exact fun _ => ⟨rfl, rfl, rfl, rfl, rfl⟩
  · rintro (hs | hs) <;> cases hs
  all_goals
    intro hs
    cases hs

end WellFormed

namespace Documents

/-- Only a container that was recorded has an exit code. -/
def ContainerKnown (st : Stage) (job : Job) : Prop :=
  ∀ progress exitCode, st = .polled progress (some exitCode) → job.containerId.isSome = true

/-- Every write of a well-formed document is one again. -/
theorem wellFormed_write {op : Op} {st st' : Stage} {seen new : Job} {now : ℤ}
    (hw : JobWrite op st seen now st' new) (h : WellFormed seen) (hst : ContainerKnown st seen) :
    WellFormed new := by
  cases hw with
  | requestCancel hactive =>
    exact ⟨h.steps, h.queued, h.running, h.initializing, h.completed, h.failed,
      fun hs => ⟨rfl, (h.cancelled hs).2⟩⟩
  | timeOut htimeout =>
    have hcheckpoint := (h.running (status_of_isTimedOut htimeout)).2.1
    exact .of_failed h.steps rfl rfl hcheckpoint
  | cancelUnstarted hrequested hactive _ =>
    exact .of_cancelled h.steps rfl hrequested (h.checkpoint_of_active hactive)
  | cancelKilled hrequested hactive =>
    exact .of_cancelled h.steps rfl hrequested (h.checkpoint_of_active hactive)
  | start hs =>
    obtain ⟨-, -, hprogress, hcheckpoint, herror⟩ := h.queued hs
    exact .of_running h.steps (.inl ⟨rfl, hprogress⟩) rfl hcheckpoint herror
  | failUnfetched hs =>
    exact .of_failed h.steps rfl rfl (h.running (.inl hs)).2.1
  | failRefused hs =>
    exact .of_failed h.steps rfl rfl (h.running (.inl hs)).2.1
  | recordContainer hs =>
    obtain ⟨hheartbeat, hcheckpoint, herror⟩ := h.running (.inl hs)
    exact .of_running h.steps (.inl ⟨hs, h.initializing hs⟩) hheartbeat hcheckpoint herror
  | enterTraining hs _ =>
    obtain ⟨hheartbeat, hcheckpoint, herror⟩ := h.running (.inl hs)
    exact .of_running h.steps (.inr rfl) hheartbeat hcheckpoint herror
  | recordProgress hs =>
    obtain ⟨-, hcheckpoint, herror⟩ := h.running (.inr hs)
    exact .of_running h.steps (.inr hs) rfl hcheckpoint herror
  | markAlive hs =>
    obtain ⟨-, hcheckpoint, herror⟩ := h.running (.inl hs)
    exact .of_running h.steps (.inl ⟨hs, h.initializing hs⟩) rfl hcheckpoint herror
  | complete hs =>
    obtain ⟨-, -, herror⟩ := h.running (.inr hs)
    exact .of_completed h.steps rfl (hst _ _ rfl) herror rfl
  | fail hs =>
    exact .of_failed h.steps rfl rfl (h.running (.inr hs)).2.1

theorem containerKnown_write {op : Op} {st st' : Stage} {seen new : Job} {now : ℤ}
    (hw : JobWrite op st seen now st' new) (hst : ContainerKnown st seen) :
    ContainerKnown st' new := by
  cases hw with
  | enterTraining _ _ => exact hst
  | recordProgress _ => exact hst
  | _ => intro progress exitCode heq; cases heq

theorem containerKnown_promote {st st' : Stage} {job : Job} (hp : Promotion st job st') :
    ContainerKnown st' job := by
  cases hp with
  | polled h =>
    intro _ _ _
    rw [(Job.container?_eq_some.mp h).1]
    rfl
  | _ => intro progress exitCode heq; cases heq

def OriginKept (old new : Job) : Prop := new.SameOrigin old

def protocol : JobProtocol where
  inv jobs := ∀ job ∈ jobs, WellFormed job
  rely _ := Table.Evolves OriginKept
  cond _ _ _ := True
  knows _ st seen jobs := WellFormed seen ∧ ContainerKnown st seen ∧ Table.Copy OriginKept seen jobs

theorem OriginKept.rfl (job : Job) : OriginKept job job := Job.SameOrigin.rfl

theorem OriginKept.trans (a b c : Job) (h₁ : OriginKept a b) (h₂ : OriginKept b c) :
    OriginKept a c :=
  Job.SameOrigin.trans h₂ h₁

theorem inv_put {jobs : JobTable} {new : Job} (h : ∀ job ∈ jobs, WellFormed job)
    (hnew : WellFormed new) : ∀ job ∈ jobs.put new, WellFormed job := by
  intro job hjob
  rcases Table.mem_put.mp hjob with rfl | ⟨hmem, -⟩
  · exact hnew
  · exact h job hmem

theorem sameOrigin_stored {op : Op} {st st' : Stage} {seen new stored : Job} {now : ℤ}
    {jobs : JobTable} (hw : JobWrite op st seen now st' new) (hk : protocol.knows op st seen jobs)
    (hstored : jobs.get? new.id = some stored) : new.SameOrigin stored :=
  hw.sameOrigin.trans (Table.Copy.stored hk.2.2 hw.id_eq hstored).symm

theorem sound : protocol.Sound where
  refl _ _ := .rfl .rfl
  trans _ _ _ _ := .trans .trans
  stable _ _ _ _ _ hrely _ hk := ⟨hk.1, hk.2.1, hk.2.2.evolve hrely .trans⟩
  found op st job jobs hst hi hmem := by
    refine ⟨hi job hmem, ?_, .of_mem .rfl hmem⟩
    intro progress exitCode heq
    rcases hst with rfl | rfl <;> cases heq
  promote _ _ _ _ _ hp hk := ⟨hk.1, containerKnown_promote hp, hk.2.2⟩
  wrote op st seen now st' new jobs hi hw hk _ := by
    have hnew := wellFormed_write hw hk.1 hk.2.1
    exact ⟨inv_put hi hnew, ⟨hnew, containerKnown_write hw hk.2.1, .put_self .rfl jobs new⟩,
      fun _ hjob hne => ⟨hjob.1, hjob.2.1, hjob.2.2.put_of_ne hne⟩,
      fun _ _ => Table.evolves_put .rfl fun _ hstored => sameOrigin_stored hw hk hstored⟩
  created _ _ _ _ _ _ _ hi hnew hfresh _ :=
    ⟨inv_put hi (.of_newJob hnew), fun _ => Table.evolves_put_fresh .rfl hfresh⟩

/-- Has the document ever been stored? -/
def Stored (w : World) (job : Job) : Prop := ∃ time old, Entry.wrote time old job ∈ w.log

/-- Was it stored under a new identifier? -/
def Created (w : World) (job : Job) : Prop := ∃ time, Entry.wrote time none job ∈ w.log

/-- The history of the documents: they are well formed and go back to their creation. -/
structure History (w : World) : Prop where
  present : ∀ job ∈ w.jobs, Stored w job
  stored : ∀ job, Stored w job → WellFormed job ∧ ∃ first, Created w first ∧ job.SameOrigin first

theorem stored_mono {w w' : World} {entries : List Entry} (h : w'.log = entries ++ w.log)
    {job : Job} (hjob : Stored w job) : Stored w' job := by
  obtain ⟨time, old, hmem⟩ := hjob
  exact ⟨time, old, by rw [h]; exact List.mem_append_right _ hmem⟩

theorem created_mono {w w' : World} {entries : List Entry} (h : w'.log = entries ++ w.log)
    {job : Job} (hjob : Created w job) : Created w' job := by
  obtain ⟨time, hmem⟩ := hjob
  exact ⟨time, by rw [h]; exact List.mem_append_right _ hmem⟩

/-- Steps that write no job. -/
theorem history_of_frame {w w' : World} {entries : List Entry} (h : History w)
    (hjobs : w'.jobs = w.jobs) (hlog : w'.log = entries ++ w.log)
    (hentries : ∀ entry ∈ entries, ∀ time old job, entry ≠ .wrote time old job) : History w' := by
  have hstored : ∀ job, Stored w' job → Stored w job := by
    rintro job ⟨time, old, hmem⟩
    rw [hlog] at hmem
    rcases List.mem_append.mp hmem with hmem | hmem
    · exact absurd rfl (hentries _ hmem time old job)
    · exact ⟨time, old, hmem⟩
  constructor
  · intro job hjob
    rw [hjobs] at hjob
    exact stored_mono hlog (h.present job hjob)
  · intro job hjob
    obtain ⟨hwf, first, hfirst, horigin⟩ := h.stored job (hstored job hjob)
    exact ⟨hwf, first, created_mono hlog hfirst, horigin⟩

theorem history_of_write {w : World} {new : Job} (h : History w) (hwf : WellFormed new)
    (horigin : ∃ first, Created (w.writeJob new) first ∧ new.SameOrigin first) :
    History (w.writeJob new) := by
  have hlog : (w.writeJob new).log = [.wrote w.clock (w.jobs.get? new.id) new] ++ w.log := rfl
  constructor
  · intro job hjob
    rcases Table.mem_put.mp hjob with rfl | ⟨hmem, -⟩
    · exact ⟨_, _, List.mem_cons_self ..⟩
    · exact stored_mono hlog (h.present job hmem)
  · rintro job ⟨time, old, hmem⟩
    rcases List.mem_cons.mp hmem with heq | hmem
    · obtain ⟨-, -, rfl⟩ := Entry.wrote.inj heq
      exact ⟨hwf, horigin⟩
    · obtain ⟨hwf', first, hfirst, horigin'⟩ := h.stored job ⟨time, old, hmem⟩
      exact ⟨hwf', first, created_mono hlog hfirst, horigin'⟩

theorem history_of_known {D : Deployment} {r : SysRecord}
    (hr : r.Known D.system (protocol.toProtocol.outline D)) (h : History r.before) :
    History r.after := by
  obtain ⟨-, hpre, o, a, he⟩ := hr
  obtain ⟨op, before, call, after⟩ := r
  have he : World.exec D.steady o before call = some (a, after) := he
  have hframe : call.writesJobs = false → History after := by
    intro hc
    obtain ⟨entries, hlog, hentries⟩ := (World.exec_frame he).log
    refine history_of_frame h ((World.exec_frame he).jobs hc) hlog ?_
    rintro entry hmem time old job rfl
    exact Call.not_wrote_of_logs hc (hentries _ hmem)
  cases call with
  | jobsCreate job =>
    obtain ⟨rfl, hfresh⟩ := World.exec_jobsCreate he
    obtain ⟨-, user, owned, today, now, hnew, -⟩ := hpre
    have hfirst : Created (before.writeJob job) job :=
      ⟨before.clock, by rw [World.writeJob, hfresh]; exact List.mem_cons_self ..⟩
    exact history_of_write h (.of_newJob hnew) ⟨job, hfirst, .rfl⟩
  | jobsUpdate seen new =>
    obtain rfl := World.exec_jobsUpdate he
    obtain ⟨st, now, st', hw, hk, -⟩ := hpre
    obtain ⟨stored, hstored, -⟩ := hk.2.2
    rw [← hw.id_eq] at hstored
    obtain ⟨-, first, hfirst, horigin⟩ :=
      h.stored stored (h.present stored (Table.mem_of_get? hstored))
    refine history_of_write h (wellFormed_write hw hk.1 hk.2.1) ⟨first, ?_, ?_⟩
    · exact @created_mono _ _ [_] rfl _ hfirst
    · exact (sameOrigin_stored hw hk hstored).trans horigin
  | _ => exact hframe rfl

end Documents

open Documents

/-- In every interleaving of single calls, with crashes of the worker, from an empty table: all
documents ever stored are well formed and keep what they were created with, and a job that is
monitored has a heartbeat. -/
theorem stored_documents_well_formed (D : Deployment) {w : World} {ls : List SysLabel}
    {rs : List SysRecord} {c : SysConf} (hjobs : w.jobs = Table.empty) (hlog : w.log = [])
    (hl : ∀ l ∈ ls, Interleaved l) (hr : D.system.run (.initial w) ls = some (rs, c)) :
    (∀ job, Stored c.state job →
      WellFormed job ∧ ∃ first, Created c.state first ∧ job.SameOrigin first) ∧
    (∀ job ∈ c.state.jobs, Stored c.state job) ∧
    ∀ job ∈ c.state.jobs.listByStatuses TimeoutService.monitoredStatuses,
      job.heartbeatAt.isSome = true := by
  have hempty : ∀ job ∈ w.jobs, WellFormed job := by
    intro job hjob
    rw [hjobs] at hjob
    exact absurd hjob (Table.not_mem_empty job)
  have hknown := (Documents.sound.run hempty hl hr fun _ _ _ => trivial).1
  have hinit : History w := by
    constructor
    · intro job hjob
      rw [hjobs] at hjob
      exact absurd hjob (Table.not_mem_empty job)
    · rintro job ⟨time, old, hmem⟩
      rw [hlog] at hmem
      cases hmem
  have hhistory : History c.state := by
    refine (Machine.run_states hr (fun r hmem => history_of_known (hknown r hmem)) ?_ hinit).2
    intro v s s' he hs
    obtain ⟨hj, -, -, entries, hlog', hentries⟩ := World.occur_frame he
    refine history_of_frame hs hj hlog' ?_
    rintro entry hmem time old job rfl
    obtain ⟨objectPath, data, heq⟩ := hentries _ hmem
    cases heq
  refine ⟨hhistory.stored, hhistory.present, fun job hjob => ?_⟩
  obtain ⟨hmem, hstatus⟩ := JobTable.mem_listByStatuses.mp hjob
  have hwf := (hhistory.stored job (hhistory.present job hmem)).1
  have hrunning : job.status = .initializing ∨ job.status = .training := by
    simpa [TimeoutService.monitoredStatuses] using hstatus
  exact (hwf.running hrunning).1

/-- A job is started, and the poller crashes before it records the container. -/
def crashAfterRun : List SysLabel :=
  Run.create "j" ++ .start .pollerTick :: List.replicate 8 (.work {}) ++
    [.work {}, .work {}, .work { text := "c" }, .crash]

theorem stored_documents_well_formed_crash : ∃ rs c,
    Deployment.sample.system.run (.initial .sample) crashAfterRun = some (rs, c) ∧
      (∀ job, Stored c.state job →
        WellFormed job ∧ ∃ first, Created c.state first ∧ job.SameOrigin first) ∧
      (∀ job ∈ c.state.jobs, Stored c.state job) ∧
      ∀ job ∈ c.state.jobs.listByStatuses TimeoutService.monitoredStatuses,
        job.heartbeatAt.isSome = true := by
  have hrun : (Deployment.sample.system.run (.initial .sample) crashAfterRun).isSome = true := by
    rfl
  obtain ⟨⟨rs, c⟩, hr⟩ := Option.isSome_iff_exists.mp hrun
  exact ⟨rs, c, hr, stored_documents_well_formed .sample rfl rfl (by decide) hr⟩

end TrainVla
