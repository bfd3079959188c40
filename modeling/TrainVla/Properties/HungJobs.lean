import TrainVla.System.CompletionRun
import TrainVla.System.TimeoutRun
import TrainVla.System.Operations

/-! A job that trains in a container that runs but makes no progress. -/
namespace TrainVla

open Interaction Store

/-- The completion ticks monitor this job, whose container runs and whose progress file reads so. -/
structure Hangs (w : World) (job : Job) (content : ProgressFile) : Prop where
  monitored : (w.jobs.listByStatuses JobCompletion.monitoredStatuses).head? = some job
  training : job.status = .training
  running : ∃ containerId, job.container? = some containerId ∧
    w.containers.stateOf containerId = .running
  content_eq : w.progressFile job.id = some content

/-- What happens from an instant on while the job hangs: completion ticks, with the calls they make,
and whatever else leaves its document alone. -/
inductive HungRun (D : Deployment) (jobId : String) (content : ProgressFile) (T : ℤ) :
    World → List (Sigma Call.Resp) → World → Prop
  | rfl {w : World} : HungRun D jobId content T w [] w
  | tick {w w₁ w₂ : World} {xs : ℕ → Choice} {r : Except Exc (Option Job)}
      {t : List (Sigma Call.Resp)} (hlater : ∀ n, T ≤ (xs n).time)
      (htick : eval (World.exec D.steady) xs w (JobCompletion.tick D.lib D.settings) = some (r, w₁))
      (hrest : HungRun D jobId content T w₁ t w₂) :
      HungRun D jobId content T w
        (exchanges (World.exec D.steady) xs w (JobCompletion.tick D.lib D.settings) ++ t) w₂
  | other {w w₁ w₂ : World} {t : List (Sigma Call.Resp)}
      (hdocument : w₁.jobs.get? jobId = w.jobs.get? jobId)
      (hhangs : ∃ job, job.id = jobId ∧ Hangs w₁ job content)
      (hrest : HungRun D jobId content T w₁ t w₂) : HungRun D jobId content T w t w₂

/-- The next sweep marks the job as failed. -/
def FailsAtSweep (D : Deployment) (w : World) (jobId : String) (zs : ℕ → Choice) : Prop :=
  ∃ failed w' new, eval (World.exec D.steady) zs w TimeoutService.checkAndFailTimedOutJobs =
      some (.ok failed, w') ∧
    w'.jobs.get? jobId = some new ∧ new.status = .failed

/-- Whatever the job and the state: once a tick has seen this content at an instant, further ticks
do not write, and a sweep more than the timeout later fails the job. -/
def DetectsHang (D : Deployment) (content : ProgressFile) : Prop :=
  ∀ (w w₁ : World) (job : Job) (heartbeat T : ℤ) (xs : ℕ → Choice) (r : Except Exc (Option Job)),
    Hangs w job content → job.heartbeatAt = some heartbeat → heartbeat ≤ T →
    (∀ n, (xs n).time = T) →
    eval (World.exec D.steady) xs w (JobCompletion.tick D.lib D.settings) = some (r, w₁) →
    ∀ t w₂, HungRun D job.id content T w₁ t w₂ →
      (∀ x ∈ t, x.1.writesJobs = false) ∧ w₂.jobs.get? job.id = w₁.jobs.get? job.id ∧
        ∀ zs, (D.steady = true → ClockRuns w₂ zs) → T + trainingTimeout < (zs 0).time →
          FailsAtSweep D w₂ job.id zs

namespace HungJobs

open JobCompletion

variable {D : Deployment} {w w' : World} {job : Job} {content : ProgressFile} {latest : Progress}
  {xs : ℕ → Choice}

theorem mem_of_hangs (h : Hangs w job content) : job ∈ w.jobs := by
  obtain ⟨rest, hlist⟩ := List.head?_eq_some_iff.mp h.monitored
  have hmem : job ∈ w.jobs.listByStatuses monitoredStatuses := by
    rw [hlist]
    exact List.mem_cons_self
  exact (JobTable.mem_listByStatuses.mp hmem).1

theorem get?_of_hangs (h : Hangs w job content) : w.jobs.get? job.id = some job :=
  Table.get?_of_mem (mem_of_hangs h)

/-- A tick reads, and then keeps the progress if it has changed. -/
theorem evalsTo_tick_of_hangs (h : Hangs w job content)
    (hread : ProgressReader.readProgress D.lib (some content) = .ok (some latest))
    {t : List (Sigma Call.Resp)} {new : Job} {ys : ℕ → Choice}
    (hrecord : EvalsTo (World.exec false) (fun n => xs (n + 3)) w (recordProgress job latest) t
      (.ok new) w' ys) :
    ∃ reads, (∀ x ∈ reads, x.1.writesJobs = false) ∧
      EvalsTo (World.exec false) xs w (tick D.lib D.settings) (reads ++ t) (.ok (some new)) w' ys := by
  obtain ⟨rest, hlist⟩ := List.head?_eq_some_iff.mp h.monitored
  obtain ⟨containerId, hcontainer, hstate⟩ := h.running
  have hprogress : EvalsTo (World.exec false) (fun n => xs (n + 2)) w
      (Prog.ofExcept (ProgressReader.readProgress D.lib (w.progressFile job.id))) []
      (.ok (some latest)) w fun n => xs (n + 2) := by
    rw [h.content_eq]
    exact .ofExcept_eq hread
  have hexec : World.exec false (xs 2) w (.dockerGetExitCode containerId) = some (none, w) := by
    simp only [World.exec, Containers.getExitCode, hstate]
  have hcode : EvalsTo (World.exec false) (fun n => xs (n + 2)) w (getExitCode job)
      [⟨.dockerGetExitCode containerId, none⟩] (.ok none) w fun n => xs (n + 3) := by
    unfold getExitCode
    rw [hcontainer]
    exact .perform hexec
  have hfollow : EvalsTo (World.exec false) (fun n => xs (n + 3)) w
      (followProgress job (some latest) none) t (.ok new) w' ys := by
    unfold followProgress
    dsimp only
    rw [enterTraining_of_training h.training]
    exact hrecord
  have hmonitor : EvalsTo (World.exec false) (fun n => xs (n + 1)) w (monitor D.lib D.settings job)
      (⟨.readProgressFile job.id, w.progressFile job.id⟩ :: ([] ++
        ([⟨.dockerGetExitCode containerId, none⟩] ++ (t ++ [])))) (.ok (some new)) w' ys :=
    .step rfl (hprogress.bind (hcode.bind (hfollow.bind .pure)))
  have htick := evalsTo_tick hlist hmonitor
  rw [List.append_nil] at htick
  refine ⟨[⟨.jobsListByStatuses monitoredStatuses, job :: rest⟩,
    ⟨.readProgressFile job.id, w.progressFile job.id⟩, ⟨.dockerGetExitCode containerId, none⟩],
    ?_, htick⟩
  simp [Call.writesJobs]

/-- A tick that sees what was seen before changes nothing. -/
theorem tick_of_unchanged {r : Except Exc (Option Job)} (h : Hangs w job content)
    (hread : ProgressReader.readProgress D.lib (some content) = .ok (some latest))
    (hsame : progressChanged job.progress latest = false)
    (htick : eval (World.exec D.steady) xs w (tick D.lib D.settings) = some (r, w')) :
    w' = w ∧ ∀ x ∈ exchanges (World.exec D.steady) xs w (tick D.lib D.settings),
      x.1.writesJobs = false := by
  have hrecord : EvalsTo (World.exec false) (fun n => xs (n + 3)) w (recordProgress job latest) []
      (.ok job) w (fun n => xs (n + 3)) := by
    rw [recordProgress_of_unchanged hsame]
    exact .pure
  obtain ⟨reads, hreads, hrun⟩ := evalsTo_tick_of_hangs h hread hrecord
  obtain ⟨ys, hrun'⟩ := World.evalsTo_of_steady htick
  obtain ⟨htrace, -, rfl, -⟩ := hrun.unique hrun'
  rw [← htrace, List.append_nil]
  exact ⟨rfl, hreads⟩

/-- A tick that sees something else keeps it. -/
theorem evalsTo_tick_of_changed (xs : ℕ → Choice) (h : Hangs w job content)
    (hread : ProgressReader.readProgress D.lib (some content) = .ok (some latest))
    (hchanged : progressChanged job.progress latest = true) :
    ∃ t ys, EvalsTo (World.exec false) xs w (tick D.lib D.settings) t
      (.ok (some (recorded (xs 3).time latest job)))
      ({ w with clock := (xs 3).time }.writeJob (recorded (xs 3).time latest job)) ys := by
  obtain ⟨reads, -, hrun⟩ := evalsTo_tick_of_hangs h hread
    (evalsTo_recordProgress_changed (fun n => xs (n + 3)) w hchanged)
  exact ⟨_, _, hrun⟩

/-- The job still hangs then. -/
theorem hangs_recorded (h : Hangs w job content) (now : ℤ) :
    Hangs ({ w with clock := now }.writeJob (recorded now latest job)) (recorded now latest job)
      content := by
  constructor
  case monitored =>
    have hstatus : (recorded now latest job).status ∈ monitoredStatuses := by
      have htraining : (recorded now latest job).status = .training := h.training
      rw [htraining]
      decide
    exact JobTable.head_listByStatuses_put h.monitored rfl rfl hstatus
  case training => exact h.training
  case running => exact h.running
  case content_eq => exact h.content_eq

/-- However long the run is, it does not write. -/
theorem unchanged_of_run {t : List (Sigma Call.Resp)} {T : ℤ} (h : Hangs w job content)
    (hread : ProgressReader.readProgress D.lib (some content) = .ok (some latest))
    (hsame : progressChanged job.progress latest = false)
    (hrun : HungRun D job.id content T w t w') :
    Hangs w' job content ∧ ∀ x ∈ t, x.1.writesJobs = false := by
  induction hrun with
  | rfl => exact ⟨h, by simp⟩
  | tick hlater htick _ ih =>
    obtain ⟨rfl, hquiet⟩ := tick_of_unchanged h hread hsame htick
    obtain ⟨hend, hrest⟩ := ih h
    refine ⟨hend, fun x hx => ?_⟩
    rcases List.mem_append.mp hx with hx | hx
    · exact hquiet x hx
    · exact hrest x hx
  | other hdocument hhangs _ ih =>
    obtain ⟨job', hid, hhangs⟩ := hhangs
    have hget := get?_of_hangs hhangs
    rw [hid, hdocument, get?_of_hangs h] at hget
    obtain rfl := Option.some.inj hget
    exact ih hhangs

theorem failsAtSweep_of_hangs {heartbeat T : ℤ} {zs : ℕ → Choice} (h : Hangs w job content)
    (hheartbeat : job.heartbeatAt = some heartbeat) (hle : heartbeat ≤ T)
    (hclock : D.steady = true → ClockRuns w zs) (hlate : T + trainingTimeout < (zs 0).time) :
    FailsAtSweep D w job.id zs := by
  have htimedOut : isTimedOut job.status job.heartbeatAt (zs 0).time = true := by
    rw [h.training, hheartbeat]
    simp only [isTimedOut, timeoutForStatus, decide_eq_true_eq]
    omega
  obtain ⟨t, log, ys, hrun⟩ := TimeoutService.evalsTo_sweep zs w
  unfold FailsAtSweep
  rw [World.eval_steady hclock]
  exact ⟨_, _, _, hrun.eval, TimeoutService.get?_expired (mem_of_hangs h) htimedOut, rfl⟩

/-- Content that equals itself is seen as a change at most once. -/
theorem detectsHang_of_unchanged
    (hread : ProgressReader.readProgress D.lib (some content) = .ok (some latest))
    (hself : progressChanged (some latest) latest = false) : DetectsHang D content := by
  intro w w₁ job heartbeat T xs r h hheartbeat hle htime htick t w₂ hrun
  have hkept : ∀ seen : Job, seen.id = job.id → Hangs w₁ seen content →
      progressChanged seen.progress latest = false →
      (∃ b, seen.heartbeatAt = some b ∧ b ≤ T) →
      (∀ x ∈ t, x.1.writesJobs = false) ∧ w₂.jobs.get? job.id = w₁.jobs.get? job.id ∧
        ∀ zs, (D.steady = true → ClockRuns w₂ zs) → T + trainingTimeout < (zs 0).time →
          FailsAtSweep D w₂ job.id zs := by
    intro seen hid hhangs hsame hbeat
    obtain ⟨b, hb, hbT⟩ := hbeat
    rw [← hid] at hrun ⊢
    obtain ⟨hend, hquiet⟩ := unchanged_of_run hhangs hread hsame hrun
    refine ⟨hquiet, ?_, fun zs hclock hlate => failsAtSweep_of_hangs hend hb hbT hclock hlate⟩
    rw [get?_of_hangs hend, get?_of_hangs hhangs]
  cases hchanged : progressChanged job.progress latest with
  | false =>
    obtain ⟨rfl, -⟩ := tick_of_unchanged h hread hchanged htick
    exact hkept job rfl h hchanged ⟨heartbeat, hheartbeat, hle⟩
  | true =>
    obtain ⟨t', ys, hfirst⟩ := evalsTo_tick_of_changed xs h hread hchanged
    obtain ⟨zs, hfirst'⟩ := World.evalsTo_of_steady htick
    obtain ⟨-, -, rfl, -⟩ := hfirst.unique hfirst'
    exact hkept (recorded (xs 3).time latest job) rfl (hangs_recorded h _) hself
      ⟨(xs 3).time, rfl, (htime 3).le⟩

/-- A job that trains in a container that runs. -/
def training : Job :=
  { id := "j", userId := "user", policy := .act, sourceType := .hfHub, sourceRef := "org/dataset",
    trainingSteps := 100, status := .training, containerId := some "c", heartbeatAt := some 0,
    createdAt := 0, updatedAt := 0 }

def spec : ContainerSpec :=
  JobPoller.buildContainerSpec {} training "" { inputDir := "", readOnly := true }

/-- Its progress file has this content. -/
def writing (content : ProgressFile) : World :=
  { World.sample with
    jobs := Table.empty.put training
    containers := Table.empty.put { id := "c", spec := spec, state := .running }
    jobDirs := Table.empty.put { jobId := "j", progress := some content } }

theorem writing_hangs (content : ProgressFile) : Hangs (writing content) training content where
  monitored := rfl
  training := rfl
  running := ⟨"c", rfl, rfl⟩
  content_eq := rfl

/-- The state after a tick at this instant, for a tick that always sees a change. -/
def seen (now : ℤ) (latest : Progress) (w : World) (job : Job) : World :=
  { w with clock := now }.writeJob (recorded now latest job)

theorem eval_tick_of_changed (now : ℤ) (h : Hangs w job content)
    (hread : ProgressReader.readProgress D.lib (some content) = .ok (some latest))
    (hchanged : progressChanged job.progress latest = true) (hclock : w.clock ≤ now) :
    eval (World.exec D.steady) (fun _ => { time := now }) w (tick D.lib D.settings) =
      some (.ok (some (recorded now latest job)), seen now latest w job) := by
  have hruns : D.steady = true → ClockRuns w fun _ => { time := now } :=
    fun _ => ⟨hclock, fun _ => le_refl now⟩
  obtain ⟨t, ys, hrun⟩ := evalsTo_tick_of_changed (fun _ => { time := now }) h hread hchanged
  rw [World.eval_steady hruns]
  exact hrun.eval

/-- After two such ticks a sweep finds a heartbeat of the second one. -/
theorem not_failsAtSweep (D : Deployment) (content : ProgressFile) (latest : Progress) :
    ¬ FailsAtSweep D (seen trainingTimeout latest (seen 0 latest (writing content) training)
        (recorded 0 latest training)) training.id fun _ => { time := trainingTimeout + 1 } := by
  rintro ⟨failed, w', new, heval, hget, hstatus⟩
  have hclock : trainingTimeout ≤ trainingTimeout + 1 := by omega
  rw [World.eval_steady fun _ => ⟨hclock, fun _ => le_refl _⟩] at heval
  obtain ⟨t, log, ys, hrun⟩ := TimeoutService.evalsTo_sweep
    (fun _ => { time := trainingTimeout + 1 }) (seen trainingTimeout latest
      (seen 0 latest (writing content) training) (recorded 0 latest training))
  rw [hrun.eval] at heval
  obtain ⟨-, rfl⟩ := Prod.mk.inj (Option.some.inj heval)
  have hkept : some (recorded trainingTimeout latest (recorded 0 latest training)) = some new := hget
  obtain rfl := Option.some.inj hkept
  cases hstatus

/-- Content that differs from itself keeps the job alive. -/
theorem not_detectsHang_of_changed
    (hread : ProgressReader.readProgress D.lib (some content) = .ok (some latest))
    (hother : progressChanged (some latest) latest = true) : ¬ DetectsHang D content := by
  intro h
  have hpositive : 0 ≤ trainingTimeout := by decide
  have hfirst := writing_hangs content
  have hsecond : Hangs (seen 0 latest (writing content) training) (recorded 0 latest training)
      content := hangs_recorded hfirst 0
  have htick := eval_tick_of_changed 0 hfirst hread rfl (le_refl 0)
  have hagain := eval_tick_of_changed trainingTimeout hsecond hread hother hpositive
  obtain ⟨-, -, hfails⟩ := h (writing content) _ training 0 0 _ _ hfirst rfl (le_refl 0)
    (fun _ => rfl) htick _ _ (.tick (fun _ => hpositive) hagain .rfl)
  have hclock : trainingTimeout ≤ trainingTimeout + 1 := by omega
  have hlate : 0 + trainingTimeout < trainingTimeout + 1 := by omega
  exact not_failsAtSweep D content latest
    (hfails _ (fun _ => ⟨hclock, fun _ => le_refl _⟩) hlate)

/-- Timestamps can be read here. -/
def clocked : Deployment :=
  { Deployment.sample with lib := { Deployment.sample.lib with fromIsoformat := fun _ => some 0 } }

/-- A progress file with this loss. -/
def fileWith (loss : PyFloat) : ProgressFile :=
  .json (.obj [("step", .int 10), ("total_steps", .int 100), ("loss", .float loss),
    ("timestamp", .str "1970-01-01T00:00:00+00:00")])

def progressWith (loss : PyFloat) : Progress :=
  { step := .int 10, totalSteps := .int 100, loss := .float loss, updatedAt := 0 }

end HungJobs

open HungJobs

/-- The step and the loss in the file equal themselves, as NaN does not. -/
theorem hung_jobs_detected_iff (D : Deployment) {content : ProgressFile} {latest : Progress}
    (hread : ProgressReader.readProgress D.lib (some content) = .ok (some latest)) :
    DetectsHang D content ↔
      latest.step.pyEq latest.step = true ∧ latest.loss.pyEq latest.loss = true := by
  have hself : progressChanged (some latest) latest = false ↔
      latest.step.pyEq latest.step = true ∧ latest.loss.pyEq latest.loss = true := by
    simp [progressChanged]
  rw [← hself]
  cases h : progressChanged (some latest) latest with
  | false => exact iff_of_true (detectsHang_of_unchanged hread h) (Eq.refl false)
  | true => exact iff_of_false (not_detectsHang_of_changed hread h) (by decide)

/-- A training run that diverged and hangs. -/
theorem hung_jobs_detected_fails : ¬ ∀ (D : Deployment) (content : ProgressFile)
    (latest : Progress), ProgressReader.readProgress D.lib (some content) = .ok (some latest) →
      DetectsHang D content := by
  intro h
  have hread : ProgressReader.readProgress clocked.lib (some (fileWith .nan)) =
      .ok (some (progressWith .nan)) := by rfl
  exact not_detectsHang_of_changed hread rfl (h clocked _ _ hread)

theorem hung_jobs_detected_iff_infinity :
    DetectsHang clocked (fileWith (.infinity false)) ↔
      (progressWith (.infinity false)).step.pyEq (progressWith (.infinity false)).step = true ∧
      (progressWith (.infinity false)).loss.pyEq (progressWith (.infinity false)).loss = true :=
  hung_jobs_detected_iff clocked rfl

end TrainVla
