import TrainVla.Properties.PollerTick
import TrainVla.System.FetchRun
import TrainVla.Store.Queue

/-! A tick of the poller in which the dataset of the job cannot be made available. -/
namespace TrainVla

open Interaction Store CancelWatcher DatasetFetcher JobPoller

/-- In this tick, this exception is raised while the data of the job are made available. -/
def FetchRaises (D : Deployment) (xs : ℕ → Choice) (w : World) (job : Job) (origin : Origin)
    (e : Exc) : Prop :=
  ∃ now t w₁ ys t' r w₂ zs,
    EvalsTo (World.exec false) xs w prepare t (.ok (some (started now job))) w₁ ys ∧
    EvalsTo (World.exec false) ys w₁ (fetchForJob D.lib D.settings (started now job)
      s!"{D.settings.workdir}/{(started now job).id}") t' r w₂ zs ∧
    raisedIn D.lib t' = [(origin, e)]

/-- No job is in a status with a container. -/
def Idle (w : World) : Prop := ∀ job ∈ w.jobs, job.status ∉ activeContainerStatuses

/-- Whenever the next tick is, it starts this job. -/
def CanStart (D : Deployment) (w : World) (job : Job) : Prop :=
  ∀ xs, (D.steady = true → ClockRuns w xs) → ∃ now w',
    eval (World.exec D.steady) xs w prepare = some (.ok (some (started now job)), w')

/-- The job has failed, at the price of a started one, and no longer keeps the others waiting. -/
structure FailedCleanly (D : Deployment) (w w' : World) (first : Job)
    (t : List (Sigma Call.Resp)) : Prop where
  document : ∃ new, w'.jobs.get? first.id = some new ∧ new.status = .failed ∧
    new.errorMessage ≠ none
  charged : ∃ now user charged, ⟨.now, now⟩ ∈ t ∧
    Charged w w' first.userId (dateOf now) user charged
  runs_none : ∀ x ∈ t, startsContainer x.1 = false
  idle : Idle w'
  queue : waiting w' = (waiting w).filter fun job => job.id ≠ first.id
  next : ∀ job, NextInLine w' job → (w'.users.get? job.userId).isSome = true → CanStart D w' job

/-- The tick comes to an end, and the job has failed. -/
def FailsCleanly (D : Deployment) (xs : ℕ → Choice) (w : World) (first : Job) : Prop :=
  ∃ result w', eval (World.exec D.steady) xs w (JobPoller.tick D.lib D.settings) =
      some (.ok result, w') ∧
    FailedCleanly D w w' first
      (exchanges (World.exec D.steady) xs w (JobPoller.tick D.lib D.settings))

namespace FetchFailures

variable {D : Deployment} {xs : ℕ → Choice} {w : World} {first : Job}

theorem killEach_of_idle (h : Idle w) :
    w.containers.killEach (stoppedIds (candidates w)) = .ok w.containers := by
  have hnone : stoppedIds (candidates w) = [] := by
    rw [List.eq_nil_iff_forall_not_mem]
    intro id hid
    obtain ⟨job, hjob, hstop⟩ := mem_stoppedIds.mp hid
    unfold stopped? at hstop
    split at hstop
    · rename_i hstatus
      apply h job hjob.1
      simpa [activeContainerStatuses] using hstatus
    · cases hstop
  rw [hnone]
  rfl

theorem not_occupied_of_idle (h : Idle w) : ¬ Occupied w := by
  rintro ⟨job, hjob, hstatus, -⟩
  exact h job hjob hstatus

theorem mem_waiting_of_next (h : NextInLine w first) : first ∈ waiting w := by
  obtain ⟨before, after, hwaiting, -, -⟩ := h
  rw [hwaiting]
  exact List.mem_append_right _ List.mem_cons_self

theorem sorted_of_next (h : NextInLine w first) :
    ∃ rest, ((waiting w).insertionSort fun a b => a.createdAt ≤ b.createdAt) = first :: rest := by
  obtain ⟨before, after, hwaiting, hbefore, hafter⟩ := h
  rw [hwaiting]
  exact insertionSort_of_first Job.createdAt hbefore hafter

theorem canStart_of_next (hidle : Idle w) (hnext : NextInLine w first)
    (howner : (w.users.get? first.userId).isSome = true) : CanStart D w first := by
  intro xs hclock
  obtain ⟨user, huser⟩ := Option.isSome_iff_exists.mp howner
  obtain ⟨rest, hsort⟩ := sorted_of_next hnext
  have hstatus := (PollerTick.mem_waiting.mp (mem_waiting_of_next hnext)).2.1
  obtain ⟨t, now, dirs, log, w₁, ys, -, -, hprepare, -⟩ := evalsTo_prepare_some xs
    (killEach_of_idle hidle) (not_occupied_of_idle hidle) hsort hstatus huser
  rw [World.eval_steady hclock]
  exact ⟨now, w₁, hprepare.eval⟩

section

variable {jobs : JobTable} {now later : ℤ} {message : String}

/-- The documents after the job was started and has failed. -/
def ended (jobs : JobTable) (now later : ℤ) (message : String) (first : Job) : JobTable :=
  (jobs.put (started now first)).put (failed later message (started now first))

theorem get?_ended : (ended jobs now later message first).get? first.id =
    some (failed later message (started now first)) :=
  Table.get?_put_self _ (failed later message (started now first))

/-- Neither document of the job queues. -/
theorem queue_ended (now later : ℤ) (message : String) {p : Job → Bool}
    (hjob : jobs.get? first.id = some first)
    (hstarted : p (started now first) = false)
    (hfailed : p (failed later message (started now first)) = false) :
    (ended jobs now later message first).queue p =
      (jobs.queue p).filter fun job => job.id ≠ first.id := by
  have hfirst : (jobs.put (started now first)).queue p =
      (jobs.queue p).filter fun job => job.id ≠ first.id :=
    Table.queue_put_of_not (a := started now first) hjob hstarted
  have hget : (jobs.put (started now first)).get? first.id = some (started now first) :=
    Table.get?_put_self _ (started now first)
  have hsecond : (ended jobs now later message first).queue p =
      ((jobs.put (started now first)).queue p).filter fun job => job.id ≠ first.id :=
    Table.queue_put_of_not (a := failed later message (started now first)) hget hfailed
  rw [hsecond, hfirst, List.filter_filter]
  simp only [Bool.and_self]

end

section

variable (w : World) (now : ℤ) (kept : Containers) (dirs : Table JobDir String JobDir.jobId)
  (log : List Entry)

/-- The cancellations of the tick do not touch a job that nobody asked to cancel. -/
theorem get?_afterPass_of_unflagged (hjob : first ∈ w.jobs)
    (hflag : first.cancelRequested = false) :
    (afterPass w now (candidates w) kept dirs log).jobs.get? first.id = some first := by
  have hget : (afterPass w now (candidates w) kept dirs log).jobs.get? first.id =
      w.jobs.get? first.id := by
    apply get?_afterPass_of_not_pending
    intro job hpending hid
    obtain rfl := Table.eq_of_key_eq hpending.1 hjob hid
    rw [hpending.2.2] at hflag
    cases hflag
  rw [hget]
  exact Table.get?_of_mem hjob

theorem waiting_afterPass :
    waiting (afterPass w now (candidates w) kept dirs log) = waiting w := by
  have hrows : (afterPass w now (candidates w) kept dirs log).jobs.rows.filter
      (fun job => job.status ∈ [JobStatus.queued]) =
      w.jobs.rows.filter fun job => job.status ∈ [JobStatus.queued] ∧ job.cancelRequested = false :=
    rows_afterPass (by decide)
  unfold waiting
  have hsplit : ∀ rows : List Job,
      rows.filter (fun job => job.status ∈ [JobStatus.queued] ∧ job.cancelRequested = false) =
        (rows.filter fun job => job.status ∈ [JobStatus.queued]).filter
          fun job => job.cancelRequested = false := by
    intro rows
    rw [List.filter_filter]
    congr 1
    funext job
    rw [Bool.decide_and, Bool.and_comm]
  rw [hsplit, hrows, List.filter_filter]
  congr 1
  funext job
  simp

theorem idle_afterPass (h : Idle w) : Idle (afterPass w now (candidates w) kept dirs log) := by
  have hrows : (afterPass w now (candidates w) kept dirs log).jobs.rows.filter
      (fun job => job.status ∈ activeContainerStatuses) = w.jobs.rows.filter fun job =>
        job.status ∈ activeContainerStatuses ∧ job.cancelRequested = false :=
    rows_afterPass (by decide)
  intro job hjob hstatus
  have hmem : job ∈ (afterPass w now (candidates w) kept dirs log).jobs.rows.filter
      fun job => job.status ∈ activeContainerStatuses :=
    List.mem_filter.mpr ⟨hjob, decide_eq_true hstatus⟩
  rw [hrows] at hmem
  exact h job (List.mem_filter.mp hmem).1 hstatus

end

/-- The tick up to the fetch, and how the fetch ends. -/
theorem ends_of_raises {origin : Origin} {e : Exc} (hidle : Idle w) (hnext : NextInLine w first)
    (howner : (w.users.get? first.userId).isSome = true)
    (hraises : FetchRaises D xs w first origin e) :
    ∃ t now user dirs log w₁ ys t' r w₂ zs,
      EvalsTo (World.exec false) xs w prepare t (.ok (some (started now first))) w₁ ys ∧
      EvalsTo (World.exec false) ys w₁ (fetchForJob D.lib D.settings (started now first)
        s!"{D.settings.workdir}/{(started now first).id}") t' r w₂ zs ∧
      (∀ x ∈ t, startsContainer x.1 = false) ∧ (∀ x ∈ t', startsContainer x.1 = false) ∧
      ⟨.now, now⟩ ∈ t ∧ w.users.get? first.userId = some user ∧
      w₂.jobs = (afterPass { w with clock := (xs 0).time } (xs 0).time (candidates w) w.containers
        dirs log).jobs.put (started now first) ∧
      w₂.users = w.users.put (recordJobStarted user (dateOf now)) ∧
      ((Caught origin e ∧ ∃ m, r = .error (.datasetFetch m)) ∨
        (¬ Caught origin e ∧ r = .error e)) := by
  obtain ⟨user, huser⟩ := Option.isSome_iff_exists.mp howner
  obtain ⟨rest, hsort⟩ := sorted_of_next hnext
  have hstatus := (PollerTick.mem_waiting.mp (mem_waiting_of_next hnext)).2.1
  obtain ⟨t, now, dirs, log, w₁, ys, hquiet, hclock, hprepare, hjobs₁, husers₁, -⟩ :=
    evalsTo_prepare_some xs (killEach_of_idle hidle) (not_occupied_of_idle hidle) hsort hstatus huser
  obtain ⟨now', t₁, v₁, ys', t', r, w₂, zs, hprepare', hfetch, hraised⟩ := hraises
  obtain ⟨-, hresult, rfl, rfl⟩ := hprepare.unique hprepare'
  have hsame : started now first = started now' first := Option.some.inj (Except.ok.inj hresult)
  rw [← hsame] at hfetch
  obtain ⟨t₂, r₂, v₂, zs₂, hrun, hquiet', hjobs₂, husers₂, -⟩ :=
    evalsTo_fetchForJob D.lib D.settings (started now first)
      s!"{D.settings.workdir}/{(started now first).id}" ys w₁
  obtain ⟨rfl, rfl, rfl, rfl⟩ := hfetch.unique hrun
  obtain ⟨t₃, r₃, v₃, zs₃, hrun', hfits⟩ := evalsTo_fetchForJob_fits D.lib D.settings ys w₁
    (started now first) s!"{D.settings.workdir}/{(started now first).id}"
  obtain ⟨rfl, rfl, -, -⟩ := hfetch.unique hrun'
  refine ⟨t, now, user, dirs, log, w₁, ys, t', r, w₂, zs, hprepare, hfetch, hquiet, hquiet', hclock,
    huser, ?_, ?_, ?_⟩
  · rw [hjobs₂, hjobs₁]
  · rw [husers₂, husers₁]
  · rcases hfits with ⟨hnone, -⟩ | ⟨origin', e', hone, hcases⟩
    · rw [hraised] at hnone
      cases hnone
    · rw [hraised] at hone
      obtain ⟨rfl, rfl⟩ := Prod.mk.inj (List.cons.inj hone).1
      exact hcases

/-- What the tick leaves when the exception is handled. -/
theorem failedCleanly {w' : World} {t : List (Sigma Call.Resp)} {now later : ℤ} {message : String}
    {user : User} {dirs : Table JobDir String JobDir.jobId} {log : List Entry} (hidle : Idle w)
    (hnext : NextInLine w first) (huser : w.users.get? first.userId = some user)
    (hclock : ⟨.now, now⟩ ∈ t) (hquiet : ∀ x ∈ t, startsContainer x.1 = false)
    (hjobs : w'.jobs = ended (afterPass { w with clock := (xs 0).time } (xs 0).time (candidates w)
      w.containers dirs log).jobs now later message first)
    (husers : w'.users = w.users.put (recordJobStarted user (dateOf now))) :
    FailedCleanly D w w' first t := by
  obtain ⟨hjob, -, hflag⟩ := PollerTick.mem_waiting.mp (mem_waiting_of_next hnext)
  have hidle' : Idle w' := by
    have hpass : Idle (afterPass { w with clock := (xs 0).time } (xs 0).time (candidates w)
        w.containers dirs log) := idle_afterPass { w with clock := (xs 0).time } _ _ _ _ hidle
    intro job hmem hstatus
    rw [hjobs] at hmem
    rcases Table.mem_put.mp hmem with rfl | ⟨hmem, hne⟩
    · cases hstatus with
      | tail _ hstatus => cases hstatus with
        | tail _ hstatus => cases hstatus
    · rcases Table.mem_put.mp hmem with rfl | ⟨hmem, -⟩
      · exact hne rfl
      · exact hpass job hmem hstatus
  constructor
  case document =>
    rw [hjobs]
    exact ⟨_, get?_ended, rfl, Option.some_ne_none _⟩
  case charged =>
    exact ⟨now, user, _, hclock, PollerTick.charged_of_put huser husers⟩
  case runs_none => exact hquiet
  case idle => exact hidle'
  case queue =>
    have hkept := get?_afterPass_of_unflagged { w with clock := (xs 0).time } (xs 0).time
      w.containers dirs log hjob hflag
    have hqueue := queue_ended now later message
      (p := fun job => job.status ∈ [JobStatus.queued] ∧ job.cancelRequested = false) hkept rfl rfl
    have hwaiting := waiting_afterPass { w with clock := (xs 0).time } (xs 0).time w.containers dirs
      log
    unfold waiting at hwaiting ⊢
    rw [hjobs]
    exact hqueue.trans (congrArg _ hwaiting)
  case next =>
    intro job hjob howner
    exact canStart_of_next hidle' hjob howner

end FetchFailures

open FetchFailures

/-- The exception is one that a handler on its way turns into a failure of the job. -/
theorem fetch_failures_clean_iff (D : Deployment) {xs : ℕ → Choice} {w : World} {first : Job}
    {origin : Origin} {e : Exc} (hclock : D.steady = true → ClockRuns w xs) (hidle : Idle w)
    (hnext : NextInLine w first) (howner : (w.users.get? first.userId).isSome = true)
    (hraises : FetchRaises D xs w first origin e) :
    FailsCleanly D xs w first ↔ Caught origin e := by
  unfold FailsCleanly
  rw [World.eval_steady hclock, World.exchanges_steady hclock]
  obtain ⟨t, now, user, dirs, log, w₁, ys, t', r, w₂, zs, hprepare, hfetch, hquiet, hquiet', hnow,
    huser, hjobs, husers, hcases⟩ := ends_of_raises hidle hnext howner hraises
  rw [tick_eq]
  rcases hcases with ⟨hhandled, m, rfl⟩ | ⟨hnot, rfl⟩
  · apply iff_of_true _ hhandled
    obtain ⟨t'', later, w', vs, hlaunch, hquiet'', hjobs', husers'⟩ :=
      evalsTo_launch_unfetched D.lib D.settings rfl hfetch hquiet'
    have hrun := hprepare.bind (f := finish D.lib D.settings) hlaunch
    refine ⟨_, w', hrun.eval, ?_⟩
    rw [hrun.exchanges]
    apply failedCleanly hidle hnext huser (List.mem_append_left _ hnow)
    · simpa only [List.mem_append, or_imp, forall_and] using ⟨hquiet, hquiet''⟩
    · rw [hjobs', hjobs]
      rfl
    · rw [husers', husers]
  · apply iff_of_false _ hnot
    rintro ⟨result, w', heval, -⟩
    have hother : ∀ m, e ≠ .datasetFetch m := by
      rintro m rfl
      exact hnot (by cases origin <;> trivial)
    have hlaunch := evalsTo_launch_raise hfetch hother
    have hrun := hprepare.bind (f := finish D.lib D.settings) hlaunch
    rw [hrun.eval] at heval
    cases heval

namespace FetchFailures

/-- What may be evaluated of `FetchRaises`. -/
theorem fetchRaises_of_eval {origin : Origin} {e : Exc} {now : ℤ} {w₁ : World}
    (h : eval (World.exec false) xs w prepare = some (.ok (some (started now first)), w₁))
    (hraised : raisedIn D.lib (exchanges (World.exec false)
      (fun n => xs (n + (exchanges (World.exec false) xs w prepare).length)) w₁
      (fetchForJob D.lib D.settings (started now first)
        s!"{D.settings.workdir}/{(started now first).id}")) = [(origin, e)]) :
    FetchRaises D xs w first origin e := by
  obtain ⟨t, ys, hprepare⟩ := EvalsTo.of_eval h
  obtain ⟨t', r, w₂, zs, hfetch, -⟩ := evalsTo_fetchForJob D.lib D.settings (started now first)
    s!"{D.settings.workdir}/{(started now first).id}" ys w₁
  rw [hprepare.exchanges, ← hprepare.rest, hfetch.exchanges] at hraised
  exact ⟨now, t, w₁, ys, t', r, w₂, zs, hprepare, hfetch, hraised⟩

/-- The one job waits for a dataset that is not in the cache. -/
def waitingJob : Job :=
  { id := "j", userId := "user", policy := .act, sourceType := .hfHub, sourceRef := "org/new",
    trainingSteps := 100, createdAt := 0, updatedAt := 0 }

def uncached : World :=
  { World.sample with jobs := Table.empty.put waitingJob, repos := Table.empty }

/-- The repository is there. -/
def newlyPublished : World := { uncached with repos := Table.empty.put ("org/new", []) }

/-- The hub stops answering when the tick has come to the download. -/
def unreachable (n : ℕ) : Choice :=
  if n = 10 then { fault := some (.other "HfHubHTTPError" "503 Server Error") } else {}

theorem waitingJob_next {w : World} (h : w.jobs = Table.empty.put waitingJob) :
    NextInLine w waitingJob := by
  refine ⟨[], [], ?_, by simp, by simp⟩
  unfold waiting
  rw [h]
  rfl

theorem waitingJob_idle {w : World} (h : w.jobs = Table.empty.put waitingJob) : Idle w := by
  intro job hjob
  rw [h] at hjob
  rcases Table.mem_put.mp hjob with rfl | ⟨hjob, -⟩
  · decide
  · exact absurd hjob (Table.not_mem_empty job)

end FetchFailures

/-- The download of the dataset fails, and the exception ends the worker. -/
theorem fetch_failures_clean_fails : ¬ ∀ (D : Deployment) (xs : ℕ → Choice) (w : World)
    (first : Job) (origin : Origin) (e : Exc), (D.steady = true → ClockRuns w xs) → Idle w →
    NextInLine w first → (w.users.get? first.userId).isSome = true →
    FetchRaises D xs w first origin e → FailsCleanly D xs w first := by
  intro h
  have hraises : FetchRaises .sample unreachable newlyPublished waitingJob .download
      (.other "HfHubHTTPError" "503 Server Error") := fetchRaises_of_eval rfl rfl
  obtain ⟨result, w', heval, -⟩ := h .sample unreachable newlyPublished waitingJob _ _ (fun h => by cases h)
    (waitingJob_idle rfl) (waitingJob_next rfl) rfl hraises
  have hescapes : (eval (World.exec Deployment.sample.steady) unreachable newlyPublished
      (JobPoller.tick Deployment.sample.lib Deployment.sample.settings)).any
        (fun out => !out.1.toBool) = true := by rfl
  rw [heval] at hescapes
  cases hescapes

/-- A repository that does not exist. -/
theorem fetch_failures_clean_iff_missing :
    FailsCleanly .sample (fun _ => {}) uncached waitingJob ↔
      Caught .download (.fileNotFound "org/new") :=
  fetch_failures_clean_iff .sample (fun _ => ⟨le_refl 0, fun _ => le_refl 0⟩) (waitingJob_idle rfl)
    (waitingJob_next rfl) rfl (fetchRaises_of_eval (w := uncached) rfl rfl)

end TrainVla
