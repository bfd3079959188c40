import TrainVla.Backend.TimeoutService
import TrainVla.World.Clock

/-! What the heartbeat-timeout sweep does when nobody interferes. -/
namespace TrainVla.TimeoutService

open Interaction Store

def timedOut (now : ℤ) (jobs : List Job) : List Job :=
  jobs.filter fun job => isTimedOut job.status job.heartbeatAt now

/-- The document of a job that ran into its timeout. -/
def expired (now : ℤ) (job : Job) : Job :=
  { job with status := .failed, updatedAt := now, errorMessage := some timeoutErrorMessage }

theorem failTimedOut_cons {job : Job} {now : ℤ} (jobs : List Job)
    (h : isTimedOut job.status job.heartbeatAt now = true) :
    failTimedOut now (job :: jobs) = (do
      perform (.jobsUpdate job (expired now job))
      let failedJobs ← failTimedOut now jobs
      pure (expired now job :: failedJobs)) := by
  have hcan : canTransition job.status .failed = true := by
    rcases status_of_isTimedOut h with hstatus | hstatus <;> rw [hstatus] <;> rfl
  rw [failTimedOut, if_pos h, transition_of_can hcan]
  rfl

theorem evalsTo_failTimedOut (xs : ℕ → Choice) (w : World) (now : ℤ) (jobs : List Job) :
    ∃ t log ys, EvalsTo (World.exec false) xs w (failTimedOut now jobs) t
      (.ok ((timedOut now jobs).map (expired now)))
      { w with jobs := w.jobs.putAll ((timedOut now jobs).map (expired now)), log := log } ys := by
  induction jobs generalizing xs w with
  | nil => exact ⟨[], w.log, xs, .pure⟩
  | cons job jobs ih =>
    by_cases h : isTimedOut job.status job.heartbeatAt now = true
    · have hcons : timedOut now (job :: jobs) = job :: timedOut now jobs := List.filter_cons_of_pos h
      obtain ⟨t, log, ys, hrest⟩ := ih (fun n => xs (n + 1)) (w.writeJob (expired now job))
      rw [failTimedOut_cons jobs h, hcons]
      exact ⟨_, log, ys, .step rfl (hrest.bind .pure)⟩
    · have hcons : timedOut now (job :: jobs) = timedOut now jobs := List.filter_cons_of_neg h
      rw [failTimedOut, if_neg h, hcons]
      exact ih xs w

/-- The jobs that the sweep fails, oldest first. -/
def swept (now : ℤ) (jobs : JobTable) : List Job :=
  timedOut now (jobs.listByStatuses monitoredStatuses)

theorem evalsTo_sweep (xs : ℕ → Choice) (w : World) :
    ∃ t log ys, EvalsTo (World.exec false) xs w checkAndFailTimedOutJobs t
      (.ok ((swept (xs 0).time w.jobs).map (expired (xs 0).time)))
      { w with
        clock := (xs 0).time
        jobs := w.jobs.putAll ((swept (xs 0).time w.jobs).map (expired (xs 0).time))
        log := log } ys := by
  obtain ⟨t, log, ys, hrun⟩ := evalsTo_failTimedOut (fun n => xs (n + 2))
    { w with clock := (xs 0).time } (xs 0).time (w.jobs.listByStatuses monitoredStatuses)
  unfold checkAndFailTimedOutJobs
  exact ⟨_, log, ys, .step rfl (.step rfl hrun)⟩

/-- A sweep that finds nothing only reads the clock. -/
theorem evalsTo_sweep_of_nil (xs : ℕ → Choice) (w : World) (h : swept (xs 0).time w.jobs = []) :
    ∃ t ys, EvalsTo (World.exec false) xs w checkAndFailTimedOutJobs t (.ok [])
      { w with clock := (xs 0).time } ys := by
  have hnone : ∀ jobs : List Job, timedOut (xs 0).time jobs = [] →
      failTimedOut (xs 0).time jobs = pure [] := by
    intro jobs hjobs
    induction jobs with
    | nil => rfl
    | cons job jobs ih =>
      have hjob := List.filter_eq_nil_iff.mp hjobs
      rw [List.forall_mem_cons] at hjob
      rw [failTimedOut, if_neg hjob.1]
      exact ih (List.filter_eq_nil_iff.mpr hjob.2)
  have hrest : EvalsTo (World.exec false) (fun n => xs (n + 2)) { w with clock := (xs 0).time }
      (failTimedOut (xs 0).time (w.jobs.listByStatuses monitoredStatuses)) [] (.ok [])
      { w with clock := (xs 0).time } fun n => xs (n + 2) := by
    rw [hnone _ h]
    exact .pure
  unfold checkAndFailTimedOutJobs
  exact ⟨_, _, .step rfl (.step rfl hrest)⟩

theorem mem_swept {now : ℤ} {jobs : JobTable} {job : Job} :
    job ∈ swept now jobs ↔ job ∈ jobs ∧ isTimedOut job.status job.heartbeatAt now = true := by
  unfold swept timedOut
  rw [List.mem_filter, JobTable.mem_listByStatuses]
  constructor
  · rintro ⟨⟨hjob, -⟩, h⟩
    exact ⟨hjob, h⟩
  · rintro ⟨hjob, h⟩
    have hstatus : job.status ∈ monitoredStatuses := by
      rcases status_of_isTimedOut h with hstatus | hstatus <;> rw [hstatus] <;> decide
    exact ⟨⟨hjob, hstatus⟩, h⟩

theorem map_id_expired (now : ℤ) (jobs : List Job) :
    (jobs.map (expired now)).map Job.id = jobs.map Job.id := by
  rw [List.map_map]
  rfl

theorem nodup_swept (now : ℤ) (jobs : JobTable) : ((swept now jobs).map Job.id).Nodup :=
  (jobs.listByStatuses_nodup monitoredStatuses).sublist (List.filter_sublist.map Job.id)

/-- A job that is timed out fails. -/
theorem get?_expired {jobs : JobTable} {job : Job} {now : ℤ} (hjob : job ∈ jobs)
    (h : isTimedOut job.status job.heartbeatAt now = true) :
    (jobs.putAll ((swept now jobs).map (expired now))).get? job.id = some (expired now job) := by
  have hnodup : (((swept now jobs).map (expired now)).map Job.id).Nodup := by
    rw [map_id_expired]
    exact nodup_swept now jobs
  have hmem : job ∈ swept now jobs := mem_swept.mpr ⟨hjob, h⟩
  exact Table.get?_putAll_of_mem (a := expired now job) hnodup (List.mem_map_of_mem hmem)

/-- And every other document stays. -/
theorem get?_unexpired {jobs : JobTable} {now : ℤ} {jobId : String}
    (h : ∀ job ∈ jobs, isTimedOut job.status job.heartbeatAt now = true → job.id ≠ jobId) :
    (jobs.putAll ((swept now jobs).map (expired now))).get? jobId = jobs.get? jobId := by
  apply Table.get?_putAll_of_notMem
  rw [map_id_expired, List.mem_map]
  rintro ⟨job, hjob, hid⟩
  obtain ⟨hmem, htimedOut⟩ := mem_swept.mp hjob
  exact h job hmem htimedOut hid

end TrainVla.TimeoutService
