import TrainVla.Docker.ParseArgs
import TrainVla.Worker.DockerRunner
import TrainVla.System.Provenance
import TrainVla.System.PollerRun
import TrainVla.Properties.WorkerFleet
import TrainVla.Interaction.Gate

/-! A training container trains what its job says, with the data of its job. -/
namespace TrainVla

open Interaction Store Python.Argparse

/-- What the container gets, and what its entrypoint makes of it. -/
structure RunsJob (settings : WorkerSettings) (spec : ContainerSpec) (job : Job) : Prop where
  label : spec.jobId? = some job.id
  image : spec.image = JobPoller.imageFor settings job.policy
  steps : 1 ≤ job.trainingSteps ∧ job.trainingSteps ≤ maxTrainingSteps
  args : PlainRef job.sourceRef → job.policy.parseArgs spec.command = .ok job.entrypointArgs
  refused : ¬ PlainRef job.sourceRef →
    ∃ error, job.policy.parseArgs spec.command = .error (.usage error)
  input : (job.sourceType = .hfHub →
      JobCompletion.outputDir settings job ≠ DatasetFetcher.inputDir settings job) →
    ∀ path ∈ job.entrypointArgs.inputDir, DockerRunner.mountAt? spec path =
    some { host := DatasetFetcher.inputDir settings job, bind := path
           mode := if job.sourceType = .hfHub then "ro" else "rw" }
  output : ∀ path ∈ job.entrypointArgs.outputDir, DockerRunner.mountAt? spec path =
    some { host := JobCompletion.outputDir settings job, bind := path
           mode := if job.sourceType = .hfHub ∧
             JobCompletion.outputDir settings job = DatasetFetcher.inputDir settings job then "ro"
             else "rw" }

namespace ContainerContract

variable {lib : Library} {settings : WorkerSettings} {job : Job}

/-- The container of a job whose dataset was fetched. -/
def specOf (settings : WorkerSettings) (job : Job) : ContainerSpec :=
  JobPoller.buildContainerSpec settings job s!"{settings.workdir}/{job.id}"
    (DatasetFetcher.datasetOf settings job)

/-- Two directories, unless a dataset of the hub is kept in the output directory of the job. -/
theorem volumes_specOf (h : JobCompletion.outputDir settings job ≠ DatasetFetcher.inputDir settings job) :
    (specOf settings job).volumes.rows = [(DatasetFetcher.inputDir settings job, "/workspace/input"),
      (JobCompletion.outputDir settings job, "/workspace/output")] := by
  show Table.putRows Prod.fst [(DatasetFetcher.inputDir settings job, "/workspace/input")]
    (JobCompletion.outputDir settings job, "/workspace/output") = _
  simp [Table.putRows, h]

theorem volumes_specOf_same
    (h : JobCompletion.outputDir settings job = DatasetFetcher.inputDir settings job) :
    (specOf settings job).volumes.rows =
      [(DatasetFetcher.inputDir settings job, "/workspace/output")] := by
  show Table.putRows Prod.fst [(DatasetFetcher.inputDir settings job, "/workspace/input")]
    (JobCompletion.outputDir settings job, "/workspace/output") = _
  simp [Table.putRows, h]

theorem readOnlyPaths_specOf : (specOf settings job).readOnlyPaths =
    if job.sourceType = .hfHub then [DatasetFetcher.inputDir settings job] else [] := by
  simp [specOf, JobPoller.buildContainerSpec, DatasetFetcher.datasetOf]

/-- An archive is extracted beside the output directory. -/
theorem outputDir_ne_inputDir (h : job.sourceType = .zipUpload) :
    JobCompletion.outputDir settings job ≠ DatasetFetcher.inputDir settings job := by
  intro heq
  unfold JobCompletion.outputDir DatasetFetcher.inputDir at heq
  rw [h] at heq
  simp [toString, ← String.toList_inj] at heq

theorem runsJob (hwf : WellFormed job) : RunsJob settings (specOf settings job) job := by
  have hsteps := hwf.steps
  have hfits : Python.Short job.trainingSteps.natAbs := by
    have hsmall : job.trainingSteps.natAbs < 100000 := by omega
    have hfew : (Nat.toDigits 10 job.trainingSteps.natAbs).length ≤ 5 :=
      (Nat.length_toDigits_le_iff (by decide) (by decide)).mpr hsmall
    exact Nat.le_trans hfew (by decide)
  have hparse : ∀ argv, job.policy.parseArgs argv = TrainEntrypoint.parseArgs argv := by
    intro argv
    cases job.policy <;> rfl
  constructor
  · exact JobPoller.buildContainerSpec_jobId? settings job _ _
  · rfl
  · exact hsteps
  · intro hplain
    rw [hparse, specOf, TrainEntrypoint.command_eq_render]
    exact TrainEntrypoint.parseArgs_command job (by omega) hfits hplain
  · intro hplain
    rw [hparse, specOf, TrainEntrypoint.command_eq_render]
    exact TrainEntrypoint.parseArgs_command_of_not_plain job hplain
  · rintro hapart path hpath
    obtain rfl := Option.some.inj hpath
    have hne : JobCompletion.outputDir settings job ≠ DatasetFetcher.inputDir settings job := by
      cases htype : job.sourceType with
      | hfHub => exact hapart htype
      | zipUpload => exact outputDir_ne_inputDir htype
    unfold DockerRunner.mountAt? DockerRunner.mounts
    rw [volumes_specOf hne, readOnlyPaths_specOf]
    cases htype : job.sourceType <;> simp
  · rintro path hpath
    obtain rfl := Option.some.inj hpath
    unfold DockerRunner.mountAt? DockerRunner.mounts
    rw [readOnlyPaths_specOf]
    by_cases hsame : JobCompletion.outputDir settings job = DatasetFetcher.inputDir settings job
    · rw [volumes_specOf_same hsame]
      cases htype : job.sourceType <;> simp [hsame]
    · rw [volumes_specOf hsame]
      cases htype : job.sourceType <;> simp [hsame]

/-! Only the poller starts containers, and only for the job that it has found in the queue. -/

/-- Nothing but starting a container like this one. -/
def Unstarted (spec : ContainerSpec) (c : Call) : Prop := c ≠ .dockerRun spec

/-- The poller does not start this container unless it has found a job that it is for. -/
def startGate (settings : WorkerSettings) (spec : ContainerSpec) : Gate Request Call World where
  harmless r c := r = .pollerTick → Unstarted spec c
  opens r := r.call = .jobsListByStatuses [.queued] ∧
    ∃ job ∈ r.before.jobs, job.status = .queued ∧ spec = specOf settings job

variable {spec : ContainerSpec}

theorem unstarted_of_aloof {c : Call} (h : JobPoller.Aloof c) : Unstarted spec c := by
  rintro rfl
  have hmoves : true = false := h.2.2
  cases hmoves

theorem within_stopContainer (job : Job) :
    (CancelWatcher.stopContainer job).Within (Unstarted spec) := by
  unfold CancelWatcher.stopContainer
  split
  · split
    · apply Prog.Within.perform (by simp [Unstarted])
      intro r
      apply Prog.Within.bind (.ofExcept r)
      intro _
      exact .perform (by simp [Unstarted]) fun _ => .pure _
    · exact .pure _
  · exact .pure _

theorem within_cancelRequested (now : ℤ) (jobs : List Job) :
    (CancelWatcher.cancelRequested now jobs).Within (Unstarted spec) := by
  induction jobs with
  | nil => exact .pure _
  | cons job jobs ih =>
    unfold CancelWatcher.cancelRequested
    split
    · exact ih
    · apply Prog.Within.bind (within_stopContainer job)
      intro _
      apply Prog.Within.bind (.ofExcept _)
      intro updated
      apply Prog.Within.perform (by simp [Unstarted])
      intro _
      exact .bind ih fun _ => .pure _

theorem within_processCancellations :
    CancelWatcher.processCancellations.Within (Unstarted spec) := by
  unfold CancelWatcher.processCancellations
  apply Prog.Within.perform (by simp [Unstarted])
  intro now
  exact .perform (by simp [Unstarted]) fun candidates => within_cancelRequested now candidates

theorem within_failDuringStart (job : Job) (errorMessage : String) :
    (JobPoller.failDuringStart job errorMessage).Within (Unstarted spec) := by
  unfold JobPoller.failDuringStart
  apply Prog.Within.perform (by simp [Unstarted])
  intro now
  apply Prog.Within.bind (.ofExcept _)
  intro failed
  exact .perform (by simp [Unstarted]) fun _ => .pure _

theorem returns_fetchHfDataset (settings : WorkerSettings) (repoId : String) :
    Returns (DiskManager.finalPathFor settings.hfCacheDir repoId)
      (DatasetFetcher.fetchHfDataset settings repoId) := by
  unfold DatasetFetcher.fetchHfDataset
  apply Returns.bind
  intro r
  apply Returns.bind
  intro hit
  split
  · apply Returns.bind
    intro r
    exact .bind fun _ => .pure _
  · apply Returns.bind
    intro r
    apply Returns.bind
    intro _
    apply Returns.bind
    intro r
    split
    · exact .raise _
    · exact .raise _
    · apply Returns.bind
      intro _
      exact .bind fun _ => .pure _

theorem returns_extractZipUpload (lib : Library) (jobId objectPath targetDir : String) :
    Returns targetDir (DatasetFetcher.extractZipUpload lib jobId objectPath targetDir) := by
  unfold DatasetFetcher.extractZipUpload
  apply Returns.bind
  intro r
  apply Returns.bind
  intro _
  apply Returns.bind
  intro r
  split
  · exact .raise _
  · exact .raise _
  · exact .raise _
  · exact .bind fun _ => .pure _

/-- A fetch returns the dataset of the job. -/
theorem returns_fetchForJob (lib : Library) (settings : WorkerSettings) (job : Job) :
    Returns (DatasetFetcher.datasetOf settings job)
      (DatasetFetcher.fetchForJob lib settings job s!"{settings.workdir}/{job.id}") := by
  unfold DatasetFetcher.fetchForJob DatasetFetcher.datasetOf DatasetFetcher.inputDir
  cases job.sourceType with
  | hfHub => exact .bind_of (returns_fetchHfDataset _ _) (.pure _)
  | zipUpload => exact .bind_of (returns_extractZipUpload _ _ _ _) (.pure _)

section

variable {I : Installation}

theorem gated_launch (hspec : spec ≠ specOf settings job) :
    Gated (World.exec I.deployment.steady) (startGate settings spec) .pollerTick
      (JobPoller.launch lib settings job) := by
  unfold JobPoller.launch
  dsimp only
  apply Gated.attempt (JobPoller.within_fetchForJob lib settings job _)
    (fun c hc _ => unstarted_of_aloof hc) (returns_fetchForJob lib settings job)
  intro r hr
  split
  · exact .of_within (within_failDuringStart job _) fun c hc _ => hc
  · trivial
  · rename_i dataset
    obtain rfl := hr dataset rfl
    apply Gated.perform
    · rintro - heq
      exact hspec (Call.dockerRun.inj heq).symm
    · rintro o w a w' -
      right
      split
      · exact .of_within (within_failDuringStart job _) fun c hc _ => hc
      · apply Gated.perform (by simp [startGate, Unstarted])
        exact fun _ _ _ _ _ => .inr trivial

theorem gated_startJob (hspec : spec ≠ specOf settings job) :
    Gated (World.exec I.deployment.steady) (startGate settings spec) .pollerTick
      (JobPoller.startJob lib settings job) := by
  unfold JobPoller.startJob
  apply Gated.perform (by simp [startGate, Unstarted])
  rintro o w now w' -
  right
  apply Gated.perform (by simp [startGate, Unstarted])
  rintro o w found w' -
  right
  cases found with
  | none => trivial
  | some user =>
    dsimp only
    cases hmoved : transition job .initializing now with
    | error e => trivial
    | ok moved =>
      obtain ⟨-, rfl⟩ := transition_eq_ok hmoved
      apply Gated.perform (by simp [startGate, Unstarted])
      rintro o w a w' -
      right
      apply Gated.perform (by simp [startGate, Unstarted])
      rintro o w a w' -
      right
      -- the status and the heartbeat do not show in the container
      exact gated_launch hspec

theorem gated_tick : Gated (World.exec I.deployment.steady) (startGate settings spec) .pollerTick
    (JobPoller.tick lib settings) := by
  unfold JobPoller.tick
  apply Gated.bind (.of_within within_processCancellations fun c hc _ => hc)
  intro cancelled
  apply Gated.perform (by simp [startGate, Unstarted])
  rintro o w active w' -
  right
  split
  · unfold JobPoller.startNextQueuedJob
    apply Gated.perform (by simp [startGate, Unstarted])
    rintro o w queued w' he
    obtain ⟨hqueued, rfl⟩ := Prod.mk.inj (Option.some.inj he)
    cases queued with
    | nil => exact .inr trivial
    | cons job jobs =>
      by_cases hspec : spec = specOf settings job
      · have hmem : job ∈ w.jobs.listByStatuses [.queued] := by
          rw [hqueued]
          exact List.mem_cons_self
        obtain ⟨hstored, hstatus⟩ := JobTable.mem_listByStatuses.mp hmem
        exact .inl ⟨rfl, job, hstored, List.mem_singleton.mp hstatus, hspec⟩
      · exact .inr (gated_startJob hspec)
  · trivial

theorem gated_start (r : Request) : Gated (World.exec I.deployment.steady)
    (startGate I.deployment.settings spec) r (r.code I) := by
  cases r with
  | pollerTick => exact Gated.bind gated_tick fun _ => trivial
  | _ => exact .of_harmless (fun c heq => by cases heq) _

end

/-- The path of an upload is no option. -/
theorem plainRef_of_provenance {D : Deployment} {log : List Entry} (h : Provenance D log job)
    (hzip : job.sourceType = .zipUpload) : PlainRef job.sourceRef := by
  obtain ⟨uploadId, data, href, -⟩ := h.source hzip
  apply plain_of_head?
  rw [href, UploadService.objectPath_toList]
  simp

theorem eq_pollerTick {I : Installation} {r : Request} (h : r.op I = .pollerTick) :
    r = .pollerTick := by
  cases r with
  | pollerTick => rfl
  | _ => cases h

/-- What is known of every call of a run. -/
theorem known_of_run {I : Installation} {P : Type} [DecidableEq P] {w : World}
    {ls : List (WorkerFleetLabel P)} {rs : List ApiRecord} {c : WorkerFleetConf P}
    (hjobs : w.jobs = Table.empty) (hr : I.fleet.run (.initial w) ls = some (rs, c)) :
    (∀ r ∈ rs, (r.map (Request.op I)).Known I.deployment.system
      (Documents.protocol.toProtocol.outline I.deployment)) ∧
    ∀ r ∈ rs, (r.map (Request.op I)).Known I.deployment.system
      ((Provenance.protocol I.deployment).outline I.deployment) := by
  have hnone : ∀ job, job ∉ w.jobs := by
    intro job hjob
    rw [hjobs] at hjob
    exact Table.not_mem_empty job hjob
  have hdocuments : Documents.protocol.toProtocol.Sound I.deployment fun _ => True :=
    Documents.sound.protocol
  have hprovenance : (Provenance.protocol I.deployment).Sound I.deployment fun _ => True :=
    Provenance.sound
  have hdirect : ∀ r : Request, (r.op I).direct = false := by
    intro r
    cases r <;> rfl
  constructor
  · exact (hdocuments.fleet_run (fun _ _ _ => trivial) (fun _ _ _ => trivial) (fun _ => trivial)
      (fun _ => trivial) trivial (fun job hjob => absurd hjob (hnone job)) (fun _ _ => trivial) hr).2
  · exact (hprovenance.fleet_run (fun _ _ _ => trivial) (fun r _ _ => hdirect r) (fun _ => trivial)
      (fun _ => trivial) trivial (fun job hjob => absurd hjob (hnone job)) (fun _ _ => trivial) hr).2

end ContainerContract

open ContainerContract

/-- On its own a poller tick starts a container only after it has found the job in the queue.
Whatever requests and worker processes there are, nobody else starts one, and the job was created
before and its archive, if it has one, passed the checks. The container gets the dataset and the
output directory of this job, and the parameters of the job are what its entrypoint reads from the
command line, unless the reference looks like an option. -/
theorem containers_run_their_jobs (I : Installation) {P : Type} [DecidableEq P] {w : World}
    {ls : List (WorkerFleetLabel P)} {rs : List ApiRecord} {c : WorkerFleetConf P}
    (hjobs : w.jobs = Table.empty) (hr : I.fleet.run (.initial w) ls = some (rs, c)) :
    (∀ (spec : ContainerSpec) (r : Request), Gated (World.exec I.deployment.steady)
      (startGate I.deployment.settings spec) r (r.code I)) ∧
    ∀ h r t, rs = h ++ r :: t → ∀ spec, r.call = .dockerRun spec →
      r.op = .pollerTick ∧ ∃ r' ∈ h, r'.op = .pollerTick ∧
        r'.call = .jobsListByStatuses [.queued] ∧
        ∃ job ∈ r'.before.jobs, job.status = .queued ∧ spec = specOf I.deployment.settings job ∧
          Provenance I.deployment r'.before.log job ∧
          (job.sourceType = .zipUpload → PlainRef job.sourceRef) ∧
          RunsJob I.deployment.settings spec job := by
  refine ⟨fun spec r => gated_start r, ?_⟩
  intro h r t heq spec hcall
  obtain ⟨-, a, hrun, hm⟩ := Fleet.run_refines (I.lawful P) (.initial w) (.initial w) hr
  have hheeded : (startGate I.deployment.settings spec).Heeded h r :=
    Machine.run_gated (M := I.system) gated_start hrun h t r heq
  obtain ⟨hdocuments, hprovenance⟩ := known_of_run hjobs hr
  have hmem : r ∈ rs := by
    rw [heq]
    exact List.mem_append_right h List.mem_cons_self
  have hpre := (hdocuments r hmem).pre
  rw [Record.map, hcall] at hpre
  have hop : r.op = .pollerTick := eq_pollerTick hpre.1
  refine ⟨hop, ?_⟩
  rcases hheeded with hharmless | ⟨r', hmem', hop', hlist, job, hjob, hstatus, rfl⟩
  · exact absurd hcall (hharmless hop)
  · have hbefore : r' ∈ rs := by
      rw [heq]
      exact List.mem_append_left _ hmem'
    have hborne := (hprovenance r' hbefore).inv job hjob
    refine ⟨r', hmem', hop'.trans hop, hlist, job, hjob, hstatus, rfl, hborne, ?_, ?_⟩
    · exact plainRef_of_provenance hborne
    · exact runsJob ((hdocuments r' hbefore).inv job hjob)

/-- The container that is started before its worker is killed. -/
theorem containers_run_their_jobs_killed : ∃ rs c r spec job,
    Installation.camera.fleet.run (.initial WorkerFleet.hub) WorkerFleet.killedStart =
      some (rs, c) ∧ r ∈ rs ∧ r.call = .dockerRun spec ∧
      RunsJob Installation.camera.deployment.settings spec job := by
  have hrun : (Installation.camera.fleet.run (.initial WorkerFleet.hub)
      WorkerFleet.killedStart).any (fun out => out.1.any fun r => CancelWatcher.startsContainer r.call) = true := by
    rfl
  obtain ⟨⟨rs, c⟩, hr, hstarts⟩ := (Option.any_eq_true _ _).mp hrun
  obtain ⟨r, hmem, hcall⟩ := List.any_eq_true.mp hstarts
  obtain ⟨spec, hspec⟩ : ∃ spec, r.call = .dockerRun spec := by
    cases hc : r.call with
    | dockerRun spec => exact ⟨spec, rfl⟩
    | _ =>
      rw [hc] at hcall
      cases hcall
  obtain ⟨h, t, heq⟩ := List.append_of_mem hmem
  obtain ⟨-, r', -, -, -, job, -, -, -, -, -, hjob⟩ :=
    (containers_run_their_jobs .camera rfl hr).2 h r t heq spec hspec
  exact ⟨rs, c, r, spec, job, hr, hmem, hspec, hjob⟩

end TrainVla
