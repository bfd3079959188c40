import TrainVla.System.PollerRun
import TrainVla.System.Operations

/-! One tick of the poller, completely. -/
namespace TrainVla

open Interaction Store CancelWatcher DatasetFetcher JobPoller

/-- In this tick the data of the job, which is being started, are fetched with this outcome. -/
def Fetches (D : Deployment) (xs : ℕ → Choice) (w : World) (job : Job)
    (fetched : Except Exc FetchedDataset) : Prop :=
  ∃ t w₁ ys t' w₂ zs, EvalsTo (World.exec false) xs w prepare t (.ok (some job)) w₁ ys ∧
    EvalsTo (World.exec false) ys w₁
      (fetchForJob D.lib D.settings job s!"{D.settings.workdir}/{job.id}") t' fetched w₂ zs

/-- The oldest of the jobs that wait; of several that are as old, the first. -/
def NextInLine (w : World) (job : Job) : Prop :=
  ∃ before after, waiting w = before ++ job :: after ∧
    (∀ b ∈ before, job.createdAt < b.createdAt) ∧ ∀ b ∈ after, job.createdAt ≤ b.createdAt

/-- Nobody asked to cancel the job of this name. -/
def NotPending (w : World) (jobId : String) : Prop := ∀ job, Pending w job → job.id ≠ jobId

/-- One more job of the user was started today. -/
structure Charged (w w' : World) (userId : String) (today : ℤ) (user charged : User) : Prop where
  before : w.users.get? userId = some user
  after : w'.users.get? userId = some charged
  count : effectiveDailyUsed charged today = effectiveDailyUsed user today + 1
  date : charged.quotaResetDate = some today
  fields : charged = { user with
    dailyQuotaUsed := charged.dailyQuotaUsed, quotaResetDate := charged.quotaResetDate }
  others : ∀ other, other ≠ userId → w'.users.get? other = w.users.get? other

/-- The job is started, or fails on the way. -/
structure StartedNext (D : Deployment) (xs : ℕ → Choice) (w w' : World) (result : Option Job)
    (t : List (Sigma Call.Resp)) (first new : Job) (user charged : User) (now : ℤ)
    (fetched : Except Exc FetchedDataset) : Prop where
  next : NextInLine w first
  uncancelled : first.cancelRequested = false
  clock : ⟨.now, now⟩ ∈ t
  fetches : Fetches D xs w (started now first) fetched
  launched : Launched D.settings (started now first) fetched t new
  document : (new.status = .initializing ∧ new.heartbeatAt = some now ∧ new.containerId ≠ none) ∨
    (new.status = .failed ∧ new.errorMessage ≠ none)
  result_eq : result = some new
  stored : w'.jobs.get? first.id = some new
  charged : Charged w w' first.userId (dateOf now) user charged
  others : ∀ jobId, jobId ≠ first.id → NotPending w jobId →
    w'.jobs.get? jobId = w.jobs.get? jobId

/-- Nothing changes but what the cancellations change. -/
structure StartedNothing (w w' : World) (result : Option Job) (t : List (Sigma Call.Resp)) :
    Prop where
  result_eq : result = none
  runs_none : ∀ x ∈ t, startsContainer x.1 = false
  jobs : ∀ jobId, NotPending w jobId → w'.jobs.get? jobId = w.jobs.get? jobId
  jobDirs : ∀ jobId, NotPending w jobId → w'.jobDirs.get? jobId = w.jobDirs.get? jobId
  containers : ∀ id, (∀ job, Pending w job → job.container? ≠ some id) →
    w'.containers.get? id = w.containers.get? id
  users : w'.users = w.users
  cache : w'.cache = w.cache
  objects : w'.objects = w.objects

structure PollerTicked (D : Deployment) (xs : ℕ → Choice) (w w' : World) (result : Option Job)
    (t : List (Sigma Call.Resp)) : Prop where
  cancelled : ∀ job, Pending w job → ∃ new, w'.jobs.get? job.id = some new ∧
    new.status = .cancelled
  runs_once : (t.filter fun x => startsContainer x.1).length ≤ 1
  idle : Occupied w ∨ waiting w = [] → StartedNothing w w' result t
  starts : ¬ Occupied w → waiting w ≠ [] → ∃ first new user charged now fetched,
    StartedNext D xs w w' result t first new user charged now fetched

namespace PollerTick

variable {D : Deployment} {xs : ℕ → Choice} {w : World} {kept : Containers}

theorem launched_id {settings : WorkerSettings} {job new : Job} {fetched : Except Exc FetchedDataset}
    {t : List (Sigma Call.Resp)} (h : Launched settings job fetched t new) : new.id = job.id := by
  cases h <;> rfl

theorem launched_document {settings : WorkerSettings} {first new : Job} {now : ℤ}
    {fetched : Except Exc FetchedDataset} {t : List (Sigma Call.Resp)}
    (h : Launched settings (started now first) fetched t new) :
    (new.status = .initializing ∧ new.heartbeatAt = some now ∧ new.containerId ≠ none) ∨
      (new.status = .failed ∧ new.errorMessage ≠ none) := by
  cases h with
  | running => exact .inl ⟨rfl, rfl, Option.some_ne_none _⟩
  | refused => exact .inr ⟨rfl, Option.some_ne_none _⟩
  | unfetched => exact .inr ⟨rfl, Option.some_ne_none _⟩

theorem mem_waiting {job : Job} :
    job ∈ waiting w ↔ job ∈ w.jobs ∧ job.status = .queued ∧ job.cancelRequested = false := by
  unfold waiting
  rw [List.mem_filter, Table.mem_def]
  simp

theorem charged_of_put {w' : World} {userId : String} {user : User} {today : ℤ}
    (huser : w.users.get? userId = some user)
    (h : w'.users = w.users.put (recordJobStarted user today)) :
    Charged w w' userId today user (recordJobStarted user today) := by
  have hid : user.id = userId := Table.key_of_get? huser
  constructor
  case before => exact huser
  case after =>
    rw [h, ← hid]
    exact Table.get?_put_self w.users (recordJobStarted user today)
  case count =>
    unfold effectiveDailyUsed
    simp [recordJobStarted, effectiveDailyUsed]
  case date => rfl
  case fields => rfl
  case others =>
    intro other hne
    have hne' : other ≠ (recordJobStarted user today).id := by
      rw [recordJobStarted_id, hid]
      exact hne
    rw [h, Table.get?_put, if_neg hne']

/-- A tick that starts nothing. -/
theorem ticked_idle (hkill : w.containers.killEach (stoppedIds (candidates w)) = .ok kept)
    (h : Occupied w ∨ waiting w = []) :
    ∃ t result w' ys, EvalsTo (World.exec false) xs w (JobPoller.tick D.lib D.settings) t
      (.ok result) w' ys ∧ PollerTicked D xs w w' result t := by
  obtain ⟨t, dirs, log, ys, hquiet, hdirs, hprepare⟩ := evalsTo_prepare_none xs hkill h
  rw [tick_eq]
  refine ⟨t ++ [], none, _, _, hprepare.bind .pure, ?_⟩
  rw [List.append_nil]
  constructor
  case cancelled =>
    intro job hjob
    exact ⟨_, get?_afterPass_of_pending (w := { w with clock := (xs 0).time }) hjob, rfl⟩
  case runs_once =>
    have hnone : t.filter (fun x => startsContainer x.1) = [] := by
      rw [List.filter_eq_nil_iff]
      intro x hx
      rw [hquiet x hx]
      decide
    rw [hnone]
    exact Nat.zero_le 1
  case idle =>
    intro _
    constructor
    case result_eq => rfl
    case runs_none => exact hquiet
    case jobs =>
      intro jobId hjobId
      exact get?_afterPass_of_not_pending (w := { w with clock := (xs 0).time }) hjobId
    case jobDirs =>
      intro jobId hjobId
      apply hdirs
      intro hmem
      obtain ⟨job, hjob, hid⟩ := List.mem_map.mp hmem
      exact hjobId job (mem_requested.mp hjob) hid
    case containers =>
      intro id hother
      exact get?_kept_of_other hkill hother
    case users => rfl
    case cache => rfl
    case objects => rfl
  case starts =>
    intro hfree hwaiting
    rcases h with h | h
    · exact absurd h hfree
    · exact absurd h hwaiting

/-- A tick that starts a job. -/
theorem ticked_start (hkill : w.containers.killEach (stoppedIds (candidates w)) = .ok kept)
    (hids : NewIds w xs)
    (howners : ∀ job ∈ w.jobs, job.status = .queued → (w.users.get? job.userId).isSome = true)
    (hfetch : ∀ job e, Fetches D xs w job (.error e) → ∃ m, e = .datasetFetch m)
    (hfree : ¬ Occupied w) (hwaiting : waiting w ≠ []) :
    ∃ t result w' ys, EvalsTo (World.exec false) xs w (JobPoller.tick D.lib D.settings) t
      (.ok result) w' ys ∧ PollerTicked D xs w w' result t := by
  cases hsort : (waiting w).insertionSort fun a b => a.createdAt ≤ b.createdAt with
  | nil =>
    have hlength := List.length_insertionSort (r := fun a b : Job => a.createdAt ≤ b.createdAt)
      (waiting w)
    rw [hsort] at hlength
    exact absurd (List.eq_nil_of_length_eq_zero hlength.symm) hwaiting
  | cons first rest =>
    have hnext := first_of_insertionSort Job.createdAt hsort
    have hmem : first ∈ waiting w := by
      rw [← List.mem_insertionSort fun a b : Job => a.createdAt ≤ b.createdAt, hsort]
      exact List.mem_cons_self
    obtain ⟨hjob, hstatus, hflag⟩ := mem_waiting.mp hmem
    obtain ⟨user, huser⟩ := Option.isSome_iff_exists.mp (howners first hjob hstatus)
    obtain ⟨t, now, dirs, log, w₁, ys, hquiet, hclock, hprepare, hjobs₁, husers₁, hcontainers₁⟩ :=
      evalsTo_prepare_some xs hkill hfree hsort hstatus huser
    obtain ⟨t', fetched, w₂, zs, hrun, hquiet', hjobs₂, husers₂, hcontainers₂⟩ :=
      evalsTo_fetchForJob D.lib D.settings (started now first)
        s!"{D.settings.workdir}/{(started now first).id}" ys w₁
    have hfetched : Fetches D xs w (started now first) fetched :=
      ⟨t, w₁, ys, t', w₂, zs, hprepare, hrun⟩
    have hnew : NewIds w₂ zs := by
      intro n
      rw [hrun.rest, hprepare.rest, hcontainers₂, hcontainers₁, Containers.get?_killEach hkill]
      obtain ⟨htext, hfresh⟩ := hids (n + t'.length + t.length)
      refine ⟨htext, ?_⟩
      rw [hfresh]
      rfl
    obtain ⟨t'', new, w', vs, hlaunch, hlaunched, hjobs, husers⟩ := evalsTo_launch
      D.lib D.settings rfl hnew hrun hquiet' fun e he =>
        hfetch _ e (he ▸ hfetched)
    have hmoved := launched_id hlaunched
    have hid : new.id = first.id := hmoved
    have hcharged : w'.users = w.users.put (recordJobStarted user (dateOf now)) := by
      rw [husers, husers₂, husers₁]
    have htable : w'.jobs = ((afterPass { w with clock := (xs 0).time } (xs 0).time (candidates w)
        kept dirs log).jobs.put (started now first)).put new := by
      rw [hjobs, hjobs₂, hjobs₁]
    have hother : ∀ jobId, jobId ≠ first.id → w'.jobs.get? jobId =
        (afterPass { w with clock := (xs 0).time } (xs 0).time (candidates w) kept dirs
          log).jobs.get? jobId := by
      intro jobId hne
      rw [htable, Table.get?_put, if_neg (hid ▸ hne), Table.get?_put]
      exact if_neg hne
    rw [tick_eq]
    refine ⟨_, some new, w', vs, hprepare.bind hlaunch, ?_⟩
    have hall := hlaunched.prepend hquiet
    constructor
    case cancelled =>
      intro job hpending
      have hne : job.id ≠ first.id := by
        intro heq
        obtain rfl := Table.eq_of_key_eq hpending.1 hjob heq
        rw [hpending.2.2] at hflag
        cases hflag
      rw [hother job.id hne]
      exact ⟨_, get?_afterPass_of_pending (w := { w with clock := (xs 0).time }) hpending, rfl⟩
    case runs_once => exact hall.once
    case idle =>
      intro h
      rcases h with h | h
      · exact absurd h hfree
      · exact absurd h hwaiting
    case starts =>
      intro _ _
      refine ⟨first, new, user, recordJobStarted user (dateOf now), now, fetched, ?_⟩
      constructor
      case next => exact hnext
      case uncancelled => exact hflag
      case clock => exact List.mem_append_left _ hclock
      case fetches => exact hfetched
      case launched => exact hall
      case document => exact launched_document hlaunched
      case result_eq => rfl
      case stored =>
        rw [htable, ← hid]
        exact Table.get?_put_self _ new
      case charged => exact charged_of_put huser hcharged
      case others =>
        intro jobId hne hpending
        rw [hother jobId hne]
        exact get?_afterPass_of_not_pending (w := { w with clock := (xs 0).time }) hpending

end PollerTick

/-- Where killing succeeds, the owners of queued jobs exist, docker names each container anew, and
fetching raises nothing but what the poller handles. -/
theorem poller_tick_exact (D : Deployment) {xs : ℕ → Choice} {w : World}
    (hclock : D.steady = true → ClockRuns w xs) (hids : NewIds w xs)
    (howners : ∀ job ∈ w.jobs, job.status = .queued → (w.users.get? job.userId).isSome = true)
    (hkill : ∃ kept, w.containers.killEach (stoppedIds (candidates w)) = .ok kept)
    (hfetch : ∀ job e, Fetches D xs w job (.error e) → ∃ m, e = .datasetFetch m) :
    ∃ result w', eval (World.exec D.steady) xs w (JobPoller.tick D.lib D.settings) =
        some (.ok result, w') ∧
      PollerTicked D xs w w' result
        (exchanges (World.exec D.steady) xs w (JobPoller.tick D.lib D.settings)) := by
  rw [World.eval_steady hclock, World.exchanges_steady hclock]
  obtain ⟨kept, hkill⟩ := hkill
  have htick : ∃ t result w' ys, EvalsTo (World.exec false) xs w
      (JobPoller.tick D.lib D.settings) t (.ok result) w' ys ∧ PollerTicked D xs w w' result t := by
    by_cases h : Occupied w ∨ waiting w = []
    · exact PollerTick.ticked_idle hkill h
    · rw [not_or] at h
      exact PollerTick.ticked_start hkill hids howners hfetch h.1 h.2
  obtain ⟨t, result, w', ys, hrun, hticked⟩ := htick
  refine ⟨result, w', hrun.eval, ?_⟩
  rw [hrun.exchanges]
  exact hticked

namespace PollerTick

/-- One job is queued, and its dataset is in the cache. -/
def queued : World :=
  { World.sample with
    jobs := Table.empty.put
      { id := "j", userId := "user", policy := .act, sourceType := .hfHub, sourceRef := "org/dataset",
        trainingSteps := 100, createdAt := 0, updatedAt := 0 } }

def answers : ℕ → Choice := fun _ => { text := "c" }

/-- The part of the tick that may raise. -/
def untilFetched (D : Deployment) : Service Unit := do
  match ← prepare with
  | none => pure ()
  | some job =>
    let _ ← fetchForJob D.lib D.settings job s!"{D.settings.workdir}/{job.id}"
    pure ()

theorem queued_fetches (job : Job) (e : Exc) (h : Fetches .sample answers queued job (.error e)) :
    ∃ m, e = .datasetFetch m := by
  obtain ⟨t, w₁, ys, t', w₂, zs, hprepare, hfetch⟩ := h
  have hraise : EvalsTo (World.exec false) answers queued (untilFetched .sample) (t ++ t') (.error e)
      w₂ zs := hprepare.bind hfetch.bind_error
  have hfine : (eval (World.exec false) answers queued (untilFetched .sample)).any
      (fun out => out.1.toBool) = true := by rfl
  rw [hraise.eval] at hfine
  cases hfine

theorem queued_owned (job : Job) (h : job ∈ queued.jobs) :
    (queued.users.get? job.userId).isSome = true := by
  have huser : job.userId ∈ ["user"] := List.mem_map_of_mem (f := Job.userId) h
  rw [List.mem_singleton.mp huser]
  rfl

end PollerTick

theorem poller_tick_exact_queued : ∃ result w',
    eval (World.exec Deployment.sample.steady) PollerTick.answers PollerTick.queued
      (JobPoller.tick Deployment.sample.lib Deployment.sample.settings) = some (.ok result, w') ∧
    PollerTicked .sample PollerTick.answers PollerTick.queued w' result
      (exchanges (World.exec Deployment.sample.steady) PollerTick.answers PollerTick.queued
        (JobPoller.tick Deployment.sample.lib Deployment.sample.settings)) :=
  poller_tick_exact .sample (fun _ => ⟨le_refl 0, fun _ => le_refl 0⟩)
    (fun _ => ⟨by simp [PollerTick.answers], rfl⟩)
    (fun job hjob _ => PollerTick.queued_owned job hjob) ⟨Table.empty, rfl⟩ PollerTick.queued_fetches

end TrainVla
