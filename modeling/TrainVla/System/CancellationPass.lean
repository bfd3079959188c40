import TrainVla.Worker.CancelWatcher
import TrainVla.World.Clock

/-! What a pass over the requested cancellations does when nobody interferes. -/
namespace TrainVla

open Interaction Store

namespace CancelWatcher

/-- The jobs that somebody asked to cancel. -/
def requested (jobs : List Job) : List Job := jobs.filter Job.cancelRequested

def cancelled (now : ℤ) (job : Job) : Job := { job with status := .cancelled, updatedAt := now }

/-- The container that is killed for a job. -/
def stopped? (job : Job) : Option String :=
  if job.status = .initializing ∨ job.status = .training then job.container? else none

def stoppedIds (jobs : List Job) : List String := (requested jobs).filterMap stopped?

def startsContainer : Call → Bool
  | .dockerRun _ => true
  | _ => false

variable {w : World} {xs : ℕ → Choice} {now : ℤ}

theorem stopContainer_none {job : Job} (h : stopped? job = none) : stopContainer job = pure () := by
  unfold stopped? at h
  unfold stopContainer
  cases hcontainer : job.container? with
  | none => rfl
  | some containerId =>
    dsimp only
    split
    · rename_i hstatus
      rw [if_pos hstatus, hcontainer] at h
      cases h
    · rfl

theorem stopContainer_some {job : Job} {containerId : String} (h : stopped? job = some containerId) :
    stopContainer job = (do
      Prog.ofExcept (← perform (.dockerKill containerId))
      perform (.removeJobDir job.id)) := by
  unfold stopped? at h
  unfold stopContainer
  split at h
  · rename_i hstatus
    rw [h]
    dsimp only
    rw [if_pos hstatus]
  · cases h

theorem requested_cons {job : Job} (jobs : List Job) (h : job.cancelRequested = true) :
    requested (job :: jobs) = job :: requested jobs := List.filter_cons_of_pos h

theorem stoppedIds_cons_none {job : Job} (jobs : List Job) (h : stopped? job = none)  :
    stoppedIds (job :: jobs) = stoppedIds jobs := by
  unfold stoppedIds requested
  cases hrequested : job.cancelRequested <;> simp [hrequested, h]

theorem stoppedIds_cons_some {job : Job} {containerId : String} (jobs : List Job)
    (hrequested : job.cancelRequested = true) (h : stopped? job = some containerId) :
    stoppedIds (job :: jobs) = containerId :: stoppedIds jobs := by
  unfold stoppedIds
  rw [requested_cons jobs hrequested, List.filterMap_cons_some h]

theorem cancelRequested_skip {job : Job} (now : ℤ) (jobs : List Job)
    (h : job.cancelRequested = false) :
    cancelRequested now (job :: jobs) = cancelRequested now jobs := by
  rw [cancelRequested, h]
  rfl

/-- The step of the loop for a job that can be cancelled. -/
theorem cancelRequested_cons {job : Job} (now : ℤ) (jobs : List Job)
    (hrequested : job.cancelRequested = true) (hactive : job.status.Active) :
    cancelRequested now (job :: jobs) = (do
      stopContainer job
      perform (.jobsUpdate job (cancelled now job))
      let cancelledJobs ← cancelRequested now jobs
      pure (cancelled now job :: cancelledJobs)) := by
  have hcan := JobStatus.cancelled_of_active hactive
  rw [cancelRequested, hrequested, transition_of_can hcan]
  rfl

/-- The loop stops at the first container that cannot be killed. -/
theorem evalsTo_cancelRequested_error (xs : ℕ → Choice) (w : World) (now : ℤ) {jobs : List Job}
    {e : Exc}
    (hactive : ∀ job ∈ jobs, job.status.Active)
    (hkill : w.containers.killEach (stoppedIds jobs) = .error e) :
    ∃ t w' ys, EvalsTo (World.exec false) xs w (cancelRequested now jobs) t (.error e) w' ys := by
  induction jobs generalizing xs w with
  | nil => cases hkill
  | cons job jobs ih =>
    rw [List.forall_mem_cons] at hactive
    cases hrequested : job.cancelRequested with
    | false =>
      rw [cancelRequested_skip now jobs hrequested]
      apply ih xs w hactive.2
      rw [← hkill]
      unfold stoppedIds requested
      rw [List.filter_cons_of_neg (by simp [hrequested])]
    | true =>
      rw [cancelRequested_cons now jobs hrequested hactive.1]
      have hrest : ∀ xs w₁, w₁.containers.killEach (stoppedIds jobs) = .error e →
          ∃ t w' ys, EvalsTo (World.exec false) xs w₁ (do
            perform (.jobsUpdate job (cancelled now job))
            let cancelledJobs ← cancelRequested now jobs
            pure (cancelled now job :: cancelledJobs)) t (.error e) w' ys := by
        intro xs w₁ h
        obtain ⟨t, w', ys, hends⟩ := ih (fun n => xs (n + 1)) (w₁.writeJob (cancelled now job))
          hactive.2 h
        exact ⟨_, w', ys, .step rfl hends.bind_error⟩
      cases hstop : stopped? job with
      | none =>
        rw [stoppedIds_cons_none jobs hstop] at hkill
        rw [stopContainer_none hstop]
        exact hrest xs w hkill
      | some containerId =>
        rw [stoppedIds_cons_some jobs hrequested hstop] at hkill
        rw [stopContainer_some hstop]
        cases hfirst : w.containers.kill containerId with
        | error e' =>
          rw [Containers.killEach, hfirst] at hkill
          obtain rfl := Except.error.inj hkill
          exact ⟨_, w, _, .bind_error (.step (World.exec_of_kill_error hfirst) .raise)⟩
        | ok containers =>
          rw [Containers.killEach, hfirst] at hkill
          obtain ⟨t, w', ys, hends⟩ := hrest (fun n => xs (n + 2))
            { w with containers := containers, jobDirs := w.jobDirs.erase job.id } hkill
          exact ⟨_, w', ys, .bind (.step (World.exec_of_kill hfirst) (.perform rfl)) hends⟩

/-- The world after these jobs were cancelled. -/
def afterPass (w : World) (now : ℤ) (jobs : List Job) (kept : Containers)
    (dirs : Table JobDir String JobDir.jobId) (log : List Entry) : World :=
  { w with
    jobs := w.jobs.putAll ((requested jobs).map (cancelled now))
    containers := kept
    jobDirs := dirs
    log := log }

theorem afterPass_skip {job : Job} {jobs : List Job} (h : requested (job :: jobs) = requested jobs)
    (kept : Containers) (dirs : Table JobDir String JobDir.jobId) (log : List Entry) :
    afterPass w now (job :: jobs) kept dirs log = afterPass w now jobs kept dirs log := by
  unfold afterPass
  rw [h]

theorem afterPass_cons {job : Job} {jobs : List Job} (h : job.cancelRequested = true)
    (containers kept : Containers) (dirs dirs' : Table JobDir String JobDir.jobId)
    (log : List Entry) :
    afterPass ({ w with containers := containers, jobDirs := dirs }.writeJob (cancelled now job)) now
      jobs kept dirs' log = afterPass w now (job :: jobs) kept dirs' log := by
  unfold afterPass
  rw [requested_cons jobs h]
  rfl

/-- Only directories of jobs that were cancelled are removed. -/
def DirsKept (jobs : List Job) (before after : Table JobDir String JobDir.jobId) : Prop :=
  ∀ jobId, jobId ∉ (requested jobs).map Job.id → after.get? jobId = before.get? jobId

theorem DirsKept.cons {job : Job} {jobs : List Job} (h : job.cancelRequested = true)
    {before after : Table JobDir String JobDir.jobId} (hkept : DirsKept jobs before after) :
    DirsKept (job :: jobs) before after := by
  intro jobId hnot
  rw [requested_cons jobs h, List.map_cons, List.mem_cons, not_or] at hnot
  exact hkept jobId hnot.2

theorem DirsKept.cons_erase {job : Job} {jobs : List Job} (h : job.cancelRequested = true)
    {before after : Table JobDir String JobDir.jobId}
    (hkept : DirsKept (job :: jobs) (before.erase job.id) after) :
    DirsKept (job :: jobs) before after := by
  intro jobId hnot
  have hne : jobId ≠ job.id := by
    rw [requested_cons jobs h, List.map_cons, List.mem_cons, not_or] at hnot
    exact hnot.1
  rw [hkept jobId hnot, Table.get?_erase, if_neg hne]

/-- The containers can all be killed, so every job is cancelled. -/
theorem evalsTo_cancelRequested (xs : ℕ → Choice) (w : World) (now : ℤ) {jobs : List Job}
    {kept : Containers}
    (hactive : ∀ job ∈ jobs, job.status.Active)
    (hkill : w.containers.killEach (stoppedIds jobs) = .ok kept) :
    ∃ t dirs log ys, (∀ x ∈ t, startsContainer x.1 = false) ∧ DirsKept jobs w.jobDirs dirs ∧
      EvalsTo (World.exec false) xs w (cancelRequested now jobs) t
        (.ok ((requested jobs).map (cancelled now))) (afterPass w now jobs kept dirs log) ys := by
  induction jobs generalizing xs w with
  | nil =>
    obtain rfl := Except.ok.inj hkill
    exact ⟨[], w.jobDirs, w.log, xs, by simp, fun _ _ => rfl, .pure⟩
  | cons job jobs ih =>
    rw [List.forall_mem_cons] at hactive
    cases hrequested : job.cancelRequested with
    | false =>
      have hskip : requested (job :: jobs) = requested jobs :=
        List.filter_cons_of_neg (by simp [hrequested])
      unfold stoppedIds at hkill
      rw [hskip] at hkill
      rw [cancelRequested_skip now jobs hrequested]
      simp only [afterPass_skip hskip, hskip, DirsKept]
      exact ih xs w hactive.2 hkill
    | true =>
      rw [cancelRequested_cons now jobs hrequested hactive.1, requested_cons jobs hrequested]
      have hrest : ∀ xs containers dirs, containers.killEach (stoppedIds jobs) = .ok kept →
          ∃ t dirs' log ys, (∀ x ∈ t, startsContainer x.1 = false) ∧
            DirsKept (job :: jobs) dirs dirs' ∧
            EvalsTo (World.exec false) xs { w with containers := containers, jobDirs := dirs } (do
              perform (.jobsUpdate job (cancelled now job))
              let cancelledJobs ← cancelRequested now jobs
              pure (cancelled now job :: cancelledJobs)) t
              (.ok ((job :: requested jobs).map (cancelled now)))
              (afterPass w now (job :: jobs) kept dirs' log) ys := by
        intro xs containers dirs h
        obtain ⟨t, dirs', log, ys, hquiet, hdirs, hends⟩ := ih (fun n => xs (n + 1))
          ({ w with containers := containers, jobDirs := dirs }.writeJob (cancelled now job))
          hactive.2 h
        rw [afterPass_cons hrequested] at hends
        refine ⟨_, dirs', log, ys, ?_, hdirs.cons hrequested, .step rfl (hends.bind .pure)⟩
        simpa [startsContainer] using hquiet
      cases hstop : stopped? job with
      | none =>
        rw [stoppedIds_cons_none jobs hstop] at hkill
        rw [stopContainer_none hstop]
        exact hrest xs w.containers w.jobDirs hkill
      | some containerId =>
        rw [stoppedIds_cons_some jobs hrequested hstop] at hkill
        rw [stopContainer_some hstop]
        cases hfirst : w.containers.kill containerId with
        | error e =>
          rw [Containers.killEach, hfirst] at hkill
          cases hkill
        | ok containers =>
          rw [Containers.killEach, hfirst] at hkill
          obtain ⟨t, dirs, log, ys, hquiet, hdirs, hends⟩ := hrest (fun n => xs (n + 2)) containers
            (w.jobDirs.erase job.id) hkill
          refine ⟨_, dirs, log, ys, ?_, hdirs.cons_erase hrequested,
            .bind (.step (World.exec_of_kill hfirst) (.perform rfl)) hends⟩
          simpa [startsContainer] using hquiet

def candidates (w : World) : List Job := w.jobs.listByStatuses cancellableStatuses

theorem active_of_candidate {job : Job} (h : job ∈ candidates w) : job.status.Active :=
  (JobTable.mem_listByStatuses.mp h).2

theorem evalsTo_processCancellations (xs : ℕ → Choice) {kept : Containers}
    (hkill : w.containers.killEach (stoppedIds (candidates w)) = .ok kept) :
    ∃ t dirs log ys, (∀ x ∈ t, startsContainer x.1 = false) ∧
      DirsKept (candidates w) w.jobDirs dirs ∧
      EvalsTo (World.exec false) xs w processCancellations t
        (.ok ((requested (candidates w)).map (cancelled (xs 0).time)))
        (afterPass { w with clock := (xs 0).time } (xs 0).time (candidates w) kept dirs log) ys := by
  obtain ⟨t, dirs, log, ys, hquiet, hdirs, hends⟩ := evalsTo_cancelRequested
    (fun n => xs (n + 2)) { w with clock := (xs 0).time } (xs 0).time (fun _ => active_of_candidate) hkill
  refine ⟨_, dirs, log, ys, ?_, hdirs, .step (rfl) (.step rfl hends)⟩
  simpa [startsContainer] using hquiet

theorem evalsTo_processCancellations_error (xs : ℕ → Choice) {e : Exc}
    (hkill : w.containers.killEach (stoppedIds (candidates w)) = .error e) :
    ∃ t w' ys, EvalsTo (World.exec false) xs w processCancellations t (.error e) w' ys := by
  obtain ⟨t, w', ys, hends⟩ := evalsTo_cancelRequested_error
    (fun n => xs (n + 2)) { w with clock := (xs 0).time } (xs 0).time (fun _ => active_of_candidate) hkill
  exact ⟨_, w', ys, .step (rfl) (.step rfl hends)⟩

/-- A job that can be cancelled, and that somebody asked to cancel. -/
def Pending (w : World) (job : Job) : Prop :=
  job ∈ w.jobs ∧ job.status ∈ cancellableStatuses ∧ job.cancelRequested = true

theorem mem_requested {job : Job} : job ∈ requested (candidates w) ↔ Pending w job := by
  unfold requested candidates Pending
  rw [List.mem_filter, JobTable.mem_listByStatuses, and_assoc]

theorem requested_nodup (w : World) : ((requested (candidates w)).map Job.id).Nodup :=
  (w.jobs.listByStatuses_nodup cancellableStatuses).sublist (List.filter_sublist.map Job.id)

theorem container_of_stopped {job : Job} {id : String} (h : stopped? job = some id) :
    job.container? = some id := by
  unfold stopped? at h
  split at h
  · exact h
  · cases h

theorem mem_stoppedIds {id : String} :
    id ∈ stoppedIds (candidates w) ↔ ∃ job, Pending w job ∧ stopped? job = some id := by
  unfold stoppedIds
  simp only [List.mem_filterMap, mem_requested]

/-- A container that no job to cancel records is not killed. -/
theorem get?_kept_of_other {kept : Containers} {id : String}
    (hkill : w.containers.killEach (stoppedIds (candidates w)) = .ok kept)
    (h : ∀ job, Pending w job → job.container? ≠ some id) :
    kept.get? id = w.containers.get? id := by
  have hnot : id ∉ stoppedIds (candidates w) := by
    intro hmem
    obtain ⟨job, hjob, hid⟩ := mem_stoppedIds.mp hmem
    exact h job hjob (container_of_stopped hid)
  have hget := Containers.get?_killEach hkill id
  simp only [hnot, false_and, if_false, Option.map_id'] at hget
  exact hget

theorem ids_cancelled (now : ℤ) (jobs : List Job) :
    (jobs.map (cancelled now)).map Job.id = jobs.map Job.id := by
  rw [List.map_map]
  rfl

section

variable {kept : Containers} {dirs : Table JobDir String JobDir.jobId} {log : List Entry}

theorem get?_afterPass_of_pending {job : Job} (h : Pending w job) :
    (afterPass w now (candidates w) kept dirs log).jobs.get? job.id = some (cancelled now job) := by
  have hmem := List.mem_map_of_mem (f := cancelled now) (mem_requested.mpr h)
  have hnodup : (((requested (candidates w)).map (cancelled now)).map Job.id).Nodup := by
    rw [ids_cancelled]
    exact requested_nodup w
  exact Table.get?_putAll_of_mem hnodup hmem

theorem get?_afterPass_of_not_pending {jobId : String}
    (h : ∀ job, Pending w job → job.id ≠ jobId) :
    (afterPass w now (candidates w) kept dirs log).jobs.get? jobId = w.jobs.get? jobId := by
  apply Table.get?_putAll_of_notMem
  rw [ids_cancelled]
  intro hmem
  obtain ⟨job, hjob, hid⟩ := List.mem_map.mp hmem
  exact h job (mem_requested.mp hjob) hid

/-- The jobs that are left in such a status are those that nobody asked to cancel. -/
theorem rows_afterPass {statuses : List JobStatus}
    (hstatuses : ∀ s ∈ statuses, s ∈ cancellableStatuses) :
    (afterPass w now (candidates w) kept dirs log).jobs.rows.filter (fun job => job.status ∈ statuses) =
      w.jobs.rows.filter fun job => job.status ∈ statuses ∧ job.cancelRequested = false := by
  have hin : ∀ job ∈ requested (candidates w), job ∈ w.jobs :=
    fun job hjob => (mem_requested.mp hjob).1
  have hrows := Table.rows_putAll (f := cancelled now) (fun _ => rfl) hin (requested_nodup w)
  have hpending : ∀ job ∈ w.jobs.rows,
      job.id ∈ (requested (candidates w)).map Job.id ↔ Pending w job := by
    intro job hjob
    rw [List.mem_map]
    constructor
    · rintro ⟨other, hother, hid⟩
      obtain rfl := Table.eq_of_key_eq (hin other hother) hjob hid
      exact mem_requested.mp hother
    · intro h
      exact ⟨job, mem_requested.mpr h, rfl⟩
  unfold afterPass
  dsimp only
  rw [hrows, List.filter_map]
  have hsame : ∀ job ∈ w.jobs.rows, ((fun job : Job => decide (job.status ∈ statuses)) ∘
      fun job => if job.id ∈ (requested (candidates w)).map Job.id then cancelled now job else job)
        job = decide (job.status ∈ statuses ∧ job.cancelRequested = false) := by
    intro job hjob
    rw [Function.comp_apply]
    by_cases hp : Pending w job
    · rw [if_pos ((hpending job hjob).mpr hp)]
      have hcancelled : JobStatus.cancelled ∉ statuses := by
        intro hmem
        have hstill := hstatuses _ hmem
        revert hstill
        decide
      simp [cancelled, hcancelled, hp.2.2]
    · rw [if_neg (mt (hpending job hjob).mp hp)]
      have hnot : job.status ∈ statuses → job.cancelRequested = false := by
        intro hmem
        rw [← Bool.not_eq_true]
        exact fun h => hp ⟨hjob, hstatuses _ hmem, h⟩
      apply decide_eq_decide.mpr
      exact ⟨fun h => ⟨h, hnot h⟩, fun h => h.1⟩
  rw [List.filter_congr hsame]
  have hkept : ∀ job ∈ w.jobs.rows.filter (fun job => job.status ∈ statuses ∧
      job.cancelRequested = false),
      (if job.id ∈ (requested (candidates w)).map Job.id then cancelled now job else job) =
        id job := by
    intro job hjob
    obtain ⟨hmem, hq⟩ := List.mem_filter.mp hjob
    obtain ⟨-, hfalse⟩ := of_decide_eq_true hq
    have hp : ¬ Pending w job := by
      intro h
      rw [h.2.2] at hfalse
      cases hfalse
    exact if_neg (mt (hpending job hmem).mp hp)
  rw [List.map_congr_left hkept, List.map_id]

end

end CancelWatcher

end TrainVla
