import TrainVla.Worker.JobPoller
import TrainVla.System.CancellationPass
import TrainVla.Store.Earliest

/-! What a tick of the poller does when nobody interferes. -/
namespace TrainVla.JobPoller

open Interaction Store CancelWatcher DatasetFetcher

/-- `queued` to `initializing`, and the daily quota. -/
def charge (job : Job) : Service (Option Job) := do
  let now ← perform .now
  match ← perform (.usersGet job.userId) with
  | none => .raise (.userMissing job.userId)
  | some user =>
    let moved ← Prog.ofExcept (transition job .initializing now)
    let moved := { moved with heartbeatAt := some now }
    perform (.jobsUpdate job moved)
    perform (.usersUpdate (some job.id) user (recordJobStarted user (dateOf now)))
    pure (some moved)

def chargeNext : Service (Option Job) := do
  match ← perform (.jobsListByStatuses [.queued]) with
  | [] => pure none
  | job :: _ => charge job

/-- The tick up to the launch. The result is the job that is to be launched. -/
def prepare : Service (Option Job) := do
  let _ ← processCancellations
  let active ← perform (.jobsListByStatuses activeContainerStatuses)
  if active.isEmpty then chargeNext else pure none

def finish (lib : Library) (settings : WorkerSettings) : Option Job → Service (Option Job)
  | none => pure none
  | some job => launch lib settings job

theorem tick_eq (lib : Library) (settings : WorkerSettings) :
    tick lib settings = prepare >>= finish lib settings := by
  have hjob : ∀ job, startJob lib settings job = charge job >>= finish lib settings := by
    intro job
    unfold startJob charge
    rw [Prog.bind_assoc]
    congr 1
    funext now
    rw [Prog.bind_assoc]
    congr 1
    funext user
    cases user with
    | none => rfl
    | some user =>
      dsimp only
      rw [Prog.bind_assoc]
      rfl
  have hnext : startNextQueuedJob lib settings = chargeNext >>= finish lib settings := by
    unfold startNextQueuedJob chargeNext
    rw [Prog.bind_assoc]
    congr 1
    funext jobs
    cases jobs with
    | nil => rfl
    | cons job rest => exact hjob job
  unfold tick prepare
  rw [Prog.bind_assoc]
  congr 1
  funext _
  rw [Prog.bind_assoc]
  congr 1
  funext active
  split
  · exact hnext
  · rfl

/-- Some container is in use, and nobody asked to stop it. -/
def Occupied (w : World) : Prop :=
  ∃ job ∈ w.jobs, job.status ∈ activeContainerStatuses ∧ job.cancelRequested = false

/-- The jobs that are still to be started, in the order of their creation. -/
def waiting (w : World) : List Job :=
  w.jobs.rows.filter fun job => job.status ∈ [JobStatus.queued] ∧ job.cancelRequested = false

def started (now : ℤ) (job : Job) : Job :=
  { job with status := .initializing, updatedAt := now, heartbeatAt := some now }

variable {w : World} {xs : ℕ → Choice}

section

variable {now : ℤ} {kept : Containers} {dirs : Table JobDir String JobDir.jobId} {log : List Entry}

theorem active_afterPass (w : World) (now : ℤ) (kept : Containers)
    (dirs : Table JobDir String JobDir.jobId) (log : List Entry) : (((afterPass w now (candidates w) kept dirs log).jobs.listByStatuses
    activeContainerStatuses).isEmpty = true) ↔ ¬ Occupied w := by
  unfold JobTable.listByStatuses
  rw [rows_afterPass (by decide), List.isEmpty_iff, ← List.length_eq_zero_iff,
    List.length_insertionSort, List.length_eq_zero_iff, List.filter_eq_nil_iff]
  unfold Occupied
  constructor
  · rintro h ⟨job, hjob, hstatus, hflag⟩
    exact h job hjob (decide_eq_true ⟨hstatus, hflag⟩)
  · intro h job hjob hq
    obtain ⟨hstatus, hflag⟩ := of_decide_eq_true hq
    exact h ⟨job, hjob, hstatus, hflag⟩

theorem queued_afterPass (w : World) (now : ℤ) (kept : Containers)
    (dirs : Table JobDir String JobDir.jobId) (log : List Entry) : (afterPass w now (candidates w) kept dirs log).jobs.listByStatuses
    [.queued] = (waiting w).insertionSort fun a b => a.createdAt ≤ b.createdAt := by
  unfold JobTable.listByStatuses
  rw [rows_afterPass (by decide)]
  rfl

end

theorem exec_list (o : Choice) {statuses : List JobStatus} {jobs : List Job}
    (h : w.jobs.listByStatuses statuses = jobs) :
    World.exec false o w (.jobsListByStatuses statuses) = some (jobs, w) := by
  rw [← h]
  rfl

theorem evalsTo_charge (xs : ℕ → Choice) (w : World) {job : Job} {user : User} (hstatus : job.status = .queued)
    (huser : w.users.get? job.userId = some user) :
    ∃ t, EvalsTo (World.exec false) xs w (charge job) t (.ok (some (started (xs 0).time job)))
        (({ w with clock := (xs 0).time }.writeJob (started (xs 0).time job)).writeUser (some job.id)
          (recordJobStarted user (dateOf (xs 0).time))) (fun n => xs (n + 4)) ∧
      (∀ x ∈ t, startsContainer x.1 = false) ∧ ⟨.now, (xs 0).time⟩ ∈ t := by
  have hcan : canTransition job.status .initializing = true := by
    rw [hstatus]
    rfl
  have hgot : ∀ o, World.exec false o { w with clock := (xs 0).time } (.usersGet job.userId) =
      some (some user, { w with clock := (xs 0).time }) := by
    intro o
    rw [← huser]
    rfl
  have hmoved : EvalsTo (World.exec false) (fun n => xs (n + 2)) { w with clock := (xs 0).time }
      (Prog.ofExcept (transition job .initializing (xs 0).time)) []
      (.ok { job with status := .initializing, updatedAt := (xs 0).time })
      { w with clock := (xs 0).time } (fun n => xs (n + 2)) :=
    .ofExcept_eq (transition_of_can hcan)
  unfold charge
  refine ⟨_, .step rfl (.step (hgot _) (hmoved.bind (.step rfl (.step rfl .pure)))), ?_, ?_⟩
  · simp [startsContainer]
  · simp

section

variable {W W' : World} {t t' : List (Sigma Call.Resp)} {l : List Job} {r : Except Exc (Option Job)}
  {ys zs : ℕ → Choice}

theorem evalsTo_prepare_busy
    (hcancel : EvalsTo (World.exec false) xs w processCancellations t (.ok l) W ys)
    (h : (W.jobs.listByStatuses activeContainerStatuses).isEmpty = false) :
    EvalsTo (World.exec false) xs w prepare
      (t ++ [⟨.jobsListByStatuses activeContainerStatuses,
        W.jobs.listByStatuses activeContainerStatuses⟩]) (.ok none) W (fun n => ys (n + 1)) := by
  have hrest : EvalsTo (World.exec false) (fun n => ys (n + 1)) W
      (if (W.jobs.listByStatuses activeContainerStatuses).isEmpty then chargeNext else pure none) []
      (.ok none) W (fun n => ys (n + 1)) := by
    rw [h]
    exact .pure
  exact hcancel.bind (.step rfl hrest)

theorem evalsTo_prepare_next
    (hcancel : EvalsTo (World.exec false) xs w processCancellations t (.ok l) W ys)
    (h : (W.jobs.listByStatuses activeContainerStatuses).isEmpty = true)
    (hnext : EvalsTo (World.exec false) (fun n => ys (n + 1)) W chargeNext t' r W' zs) :
    EvalsTo (World.exec false) xs w prepare
      (t ++ ⟨.jobsListByStatuses activeContainerStatuses,
        W.jobs.listByStatuses activeContainerStatuses⟩ :: t') r W' zs := by
  have hrest : EvalsTo (World.exec false) (fun n => ys (n + 1)) W
      (if (W.jobs.listByStatuses activeContainerStatuses).isEmpty then chargeNext else pure none) t'
      r W' zs := by
    rw [h]
    exact hnext
  exact hcancel.bind (.step rfl hrest)

end

section

variable {kept : Containers}

/-- There is nothing to launch. -/
theorem evalsTo_prepare_none (xs : ℕ → Choice)
    (hkill : w.containers.killEach (stoppedIds (candidates w)) = .ok kept)
    (h : Occupied w ∨ waiting w = []) :
    ∃ t dirs log ys, (∀ x ∈ t, startsContainer x.1 = false) ∧
      DirsKept (candidates w) w.jobDirs dirs ∧
      EvalsTo (World.exec false) xs w prepare t (.ok none)
        (afterPass { w with clock := (xs 0).time } (xs 0).time (candidates w) kept dirs log) ys := by
  obtain ⟨t, dirs, log, ys, hquiet, hdirs, hcancel⟩ := evalsTo_processCancellations xs hkill
  have hactive := active_afterPass { w with clock := (xs 0).time } (xs 0).time kept dirs log
  by_cases hoccupied : Occupied w
  · have hbusy := Bool.eq_false_iff.mpr (mt hactive.mp (not_not.mpr hoccupied))
    refine ⟨_, dirs, log, _, ?_, hdirs, evalsTo_prepare_busy hcancel hbusy⟩
    simpa [startsContainer, or_imp, forall_and] using hquiet
  · have hidle := hactive.mpr hoccupied
    have hwaiting : waiting w = [] := by
      rcases h with h | h
      · exact absurd h hoccupied
      · exact h
    have hlist : (afterPass { w with clock := (xs 0).time } (xs 0).time (candidates w) kept dirs
        log).jobs.listByStatuses [.queued] = [] := by
      have hsort : ((waiting w).insertionSort fun a b => a.createdAt ≤ b.createdAt) = [] := by
        rw [hwaiting]
        rfl
      exact (queued_afterPass { w with clock := (xs 0).time } _ _ _ _).trans hsort
    refine ⟨_, dirs, log, _, ?_, hdirs,
      evalsTo_prepare_next hcancel hidle (.step (exec_list _ hlist) .pure)⟩
    simpa [startsContainer, or_imp, forall_and] using hquiet

/-- The first of the jobs that wait is to be launched. -/
theorem evalsTo_prepare_some (xs : ℕ → Choice) {job : Job} {rest : List Job} {user : User}
    (hkill : w.containers.killEach (stoppedIds (candidates w)) = .ok kept) (h : ¬ Occupied w)
    (hfirst : ((waiting w).insertionSort fun a b => a.createdAt ≤ b.createdAt) = job :: rest)
    (hstatus : job.status = .queued) (huser : w.users.get? job.userId = some user) :
    ∃ t now dirs log w₁ ys, (∀ x ∈ t, startsContainer x.1 = false) ∧ ⟨.now, now⟩ ∈ t ∧
      EvalsTo (World.exec false) xs w prepare t (.ok (some (started now job))) w₁ ys ∧
      w₁.jobs = (afterPass { w with clock := (xs 0).time } (xs 0).time (candidates w) kept dirs
        log).jobs.put (started now job) ∧
      w₁.users = w.users.put (recordJobStarted user (dateOf now)) ∧ w₁.containers = kept := by
  obtain ⟨t, dirs, log, ys, hquiet, -, hcancel⟩ := evalsTo_processCancellations xs hkill
  have hactive := active_afterPass { w with clock := (xs 0).time } (xs 0).time kept dirs log
  have hidle := hactive.mpr h
  have hlist : (afterPass { w with clock := (xs 0).time } (xs 0).time (candidates w) kept dirs
      log).jobs.listByStatuses [.queued] = job :: rest :=
    (queued_afterPass { w with clock := (xs 0).time } _ _ _ _).trans hfirst
  obtain ⟨t', hcharge, hquiet', hnow⟩ := evalsTo_charge (fun n => ys (n + 2))
    (afterPass { w with clock := (xs 0).time } (xs 0).time (candidates w) kept dirs log) hstatus huser
  refine ⟨_, _, dirs, log, _, _, ?_, ?_,
    evalsTo_prepare_next hcancel hidle (.step (exec_list _ hlist) hcharge), rfl, rfl, rfl⟩
  · simp only [List.mem_append, List.mem_cons, or_imp, forall_and, forall_eq]
    exact ⟨hquiet, rfl, rfl, hquiet'⟩
  · simp [hnow]

end

/-- Calls that leave documents and containers alone. -/
def Aloof (c : Call) : Prop :=
  c.writesJobs = false ∧ c.writesUsers = false ∧ c.movesContainers = false

theorem startsContainer_of_aloof {c : Call} (h : Aloof c) : startsContainer c = false := by
  cases c with
  | dockerRun spec =>
    have hmoves : true = false := h.2.2
    cases hmoves
  | _ => rfl

theorem exec_of_aloof {c : Call} (h : Aloof c) (o : Choice) (w : World) :
    ∃ out, World.exec false o w c = some out := by
  obtain ⟨hjobs, husers, hcontainers⟩ := h
  cases c with
  | jobsCreate job => cases hjobs
  | usersCreate user => cases husers
  | dockerRun spec => cases hcontainers
  | dockerKill containerId => cases hcontainers
  | storageOpenReadStream purpose objectPath =>
    simp only [World.exec]
    split <;> exact ⟨_, rfl⟩
  | storageUploadFile objectPath jobId =>
    simp only [World.exec]
    split <;> exact ⟨_, rfl⟩
  | hubDownloadDataset repoId dirName =>
    simp only [World.exec]
    split <;> exact ⟨_, rfl⟩
  | cacheTouch name =>
    simp only [World.exec]
    split <;> exact ⟨_, rfl⟩
  | cacheReplace source target =>
    simp only [World.exec]
    split
    · exact ⟨_, rfl⟩
    · exact ⟨_, rfl⟩
    · split <;> exact ⟨_, rfl⟩
  | makeJobDir jobId =>
    simp only [World.exec]
    split <;> exact ⟨_, rfl⟩
  | _ => exact ⟨_, rfl⟩

section

variable (lib : Library) (settings : WorkerSettings)

theorem within_evictEntries (maxBytes total : ℤ) (entries : List DiskManager.CacheEntry) :
    (DiskManager.evictEntries maxBytes total entries).Within Aloof := by
  induction entries generalizing total with
  | nil => exact .pure _
  | cons entry entries ih =>
    unfold DiskManager.evictEntries
    split
    · exact .pure _
    · exact .perform ⟨rfl, rfl, rfl⟩ fun _ => .bind (ih _) fun _ => .pure _

theorem within_fetchHfDataset (repoId : String) :
    (fetchHfDataset settings repoId).Within Aloof := by
  unfold fetchHfDataset
  refine .perform ⟨rfl, rfl, rfl⟩ fun _ => .bind (.ofExcept _) fun hit => ?_
  split
  · exact .perform ⟨rfl, rfl, rfl⟩ fun _ => .bind (.ofExcept _) fun _ => .pure _
  · refine .perform ⟨rfl, rfl, rfl⟩ fun _ => .bind (.ofExcept _) fun _ => ?_
    refine .perform ⟨rfl, rfl, rfl⟩ fun r => ?_
    split
    · exact .raise _
    · exact .raise _
    · unfold DiskManager.finalizeDownload DiskManager.evictLruUntilUnderCap
        DiskManager.listCacheEntries
      refine .bind (.perform ⟨rfl, rfl, rfl⟩ fun _ => .ofExcept _) fun _ => .bind ?_ fun _ => .pure _
      refine .bind (.perform ⟨rfl, rfl, rfl⟩ fun _ => .bind (.ofExcept _) fun _ => .pure _)
        fun entries => ?_
      exact within_evictEntries _ _ _

theorem within_extractZipUpload (jobId objectPath targetDir : String) :
    (extractZipUpload lib jobId objectPath targetDir).Within Aloof := by
  have hopen : (openAndExtract lib jobId objectPath).Within Aloof := by
    unfold openAndExtract
    refine .perform ⟨rfl, rfl, rfl⟩ fun _ => .bind (.ofExcept _) fun data => ?_
    refine .bind (.ofExcept _) fun _ => .perform ⟨rfl, rfl, rfl⟩ fun _ => .ofExcept _
  unfold extractZipUpload
  refine .perform ⟨rfl, rfl, rfl⟩ fun _ => .bind (.ofExcept _) fun _ => .bind hopen.attempt fun r => ?_
  split
  · exact .raise _
  · exact .raise _
  · exact .raise _
  · exact .perform ⟨rfl, rfl, rfl⟩ fun _ => .pure _

theorem within_fetchForJob (job : Job) (jobDir : String) :
    (fetchForJob lib settings job jobDir).Within Aloof := by
  unfold fetchForJob
  split
  · exact .bind (within_fetchHfDataset _ _) fun _ => .pure _
  · exact .bind (within_extractZipUpload _ _ _ _) fun _ => .pure _

/-- Fetching comes to an end, and leaves documents and containers alone. -/
theorem evalsTo_fetchForJob (lib : Library) (settings : WorkerSettings) (job : Job)
    (jobDir : String) (xs : ℕ → Choice) (w : World) :
    ∃ t r w' ys, EvalsTo (World.exec false) xs w (fetchForJob lib settings job jobDir) t r w' ys ∧
      (∀ x ∈ t, startsContainer x.1 = false) ∧ w'.jobs = w.jobs ∧ w'.users = w.users ∧
      w'.containers = w.containers := by
  have hwithin := within_fetchForJob lib settings job jobDir
  obtain ⟨t, r, w', ys, hrun⟩ := EvalsTo.total (fun o w c h => exec_of_aloof h o w) hwithin xs w
  have hkeeps := hrun.keeps
    (I := fun v => v.jobs = w.jobs ∧ v.users = w.users ∧ v.containers = w.containers)
    (fun o v c a v' hc he hi => by
      have hframe := World.exec_frame he
      exact ⟨(hframe.jobs hc.1).trans hi.1, (hframe.users hc.2.1).trans hi.2.1,
        (hframe.containers hc.2.2).trans hi.2.2⟩) hwithin ⟨rfl, rfl, rfl⟩
  exact ⟨t, r, w', ys, hrun, fun x hx => startsContainer_of_aloof (hrun.within hwithin x hx), hkeeps⟩

end

/-- The job that could not be started. -/
def failed (later : ℤ) (message : String) (job : Job) : Job :=
  { job with status := .failed, updatedAt := later, errorMessage := some message }

theorem evalsTo_failDuringStart (xs : ℕ → Choice) (w : World) {job : Job} (h : job.status = .initializing) (message : String) :
    ∃ t w' ys, EvalsTo (World.exec false) xs w (failDuringStart job message) t
        (.ok (some (failed (xs 0).time message job))) w' ys ∧
      (∀ x ∈ t, startsContainer x.1 = false) ∧
      w'.jobs = w.jobs.put (failed (xs 0).time message job) ∧ w'.users = w.users := by
  have hcan : canTransition job.status .failed = true := by
    rw [h]
    rfl
  have hmoved : EvalsTo (World.exec false) (fun n => xs (n + 1)) { w with clock := (xs 0).time }
      (Prog.ofExcept (transition job .failed (xs 0).time)) []
      (.ok { job with status := .failed, updatedAt := (xs 0).time })
      { w with clock := (xs 0).time } (fun n => xs (n + 1)) :=
    .ofExcept_eq (transition_of_can hcan)
  unfold failDuringStart
  refine ⟨_, _, _, .step rfl (hmoved.bind (.step rfl .pure)), ?_, rfl, rfl⟩
  simp [startsContainer]

/-- Docker gives a container a name of its own. -/
def NewIds (w : World) (xs : ℕ → Choice) : Prop :=
  ∀ n, (xs n).text ≠ "" ∧ w.containers.get? (xs n).text = none

theorem jobs_prepareMounts (w : World) (mtime : ℤ) (spec : ContainerSpec) :
    (w.prepareMounts mtime spec).jobs = w.jobs ∧ (w.prepareMounts mtime spec).users = w.users ∧
      (w.prepareMounts mtime spec).containers = w.containers := by
  obtain ⟨dirs, cache, hdirs⟩ := World.prepareMounts_eq w mtime spec
  rw [hdirs]
  exact ⟨rfl, rfl, rfl⟩

/-- The container of the job, for the dataset that was fetched. -/
def specFor (settings : WorkerSettings) (job : Job) (dataset : FetchedDataset) : ContainerSpec :=
  buildContainerSpec settings job s!"{settings.workdir}/{job.id}" dataset

/-- What becomes of a job whose data were fetched with this outcome, by these calls. -/
inductive Launched (settings : WorkerSettings) (job : Job) :
    Except Exc FetchedDataset → List (Sigma Call.Resp) → Job → Prop
  | running {t t' : List (Sigma Call.Resp)} {dataset : FetchedDataset} {containerId : String}
      (ht : ∀ x ∈ t, startsContainer x.1 = false) (ht' : ∀ x ∈ t', startsContainer x.1 = false) :
      Launched settings job (.ok dataset)
        (t ++ ⟨.dockerRun (specFor settings job dataset), .ok containerId⟩ :: t')
        { job with containerId := some containerId }
  | refused {t t' : List (Sigma Call.Resp)} {dataset : FetchedDataset} {e : Exc} {later : ℤ}
      (ht : ∀ x ∈ t, startsContainer x.1 = false) (ht' : ∀ x ∈ t', startsContainer x.1 = false) :
      Launched settings job (.ok dataset)
        (t ++ ⟨.dockerRun (specFor settings job dataset), .error e⟩ :: t')
        (failed later s!"Failed to start training container: {e.str}" job)
  | unfetched {t : List (Sigma Call.Resp)} {m : String} {later : ℤ}
      (ht : ∀ x ∈ t, startsContainer x.1 = false) :
      Launched settings job (.error (.datasetFetch m)) t
        (failed later s!"Failed to fetch dataset: {m}" job)

theorem Launched.prepend {settings : WorkerSettings} {job new : Job}
    {r : Except Exc FetchedDataset} {t t' : List (Sigma Call.Resp)}
    (ht : ∀ x ∈ t, startsContainer x.1 = false) (h : Launched settings job r t' new) :
    Launched settings job r (t ++ t') new := by
  cases h with
  | running hbefore hafter =>
    rw [← List.append_assoc]
    apply Launched.running _ hafter
    simpa only [List.mem_append, or_imp, forall_and] using ⟨ht, hbefore⟩
  | refused hbefore hafter =>
    rw [← List.append_assoc]
    apply Launched.refused _ hafter
    simpa only [List.mem_append, or_imp, forall_and] using ⟨ht, hbefore⟩
  | unfetched hbefore =>
    apply Launched.unfetched
    simpa only [List.mem_append, or_imp, forall_and] using ⟨ht, hbefore⟩

/-- The container is run at most once. -/
theorem Launched.once {settings : WorkerSettings} {job new : Job} {r : Except Exc FetchedDataset}
    {t : List (Sigma Call.Resp)} (h : Launched settings job r t new) :
    (t.filter fun x => startsContainer x.1).length ≤ 1 := by
  have hnone : ∀ {t : List (Sigma Call.Resp)}, (∀ x ∈ t, startsContainer x.1 = false) →
      t.filter (fun x => startsContainer x.1) = [] := by
    intro t ht
    rw [List.filter_eq_nil_iff]
    intro x hx
    rw [ht x hx]
    decide
  cases h with
  | running hbefore hafter =>
    rw [List.filter_append, List.filter_cons, hnone hbefore, hnone hafter]
    rfl
  | refused hbefore hafter =>
    rw [List.filter_append, List.filter_cons, hnone hbefore, hnone hafter]
    rfl
  | unfetched hbefore =>
    rw [hnone hbefore]
    exact Nat.zero_le 1

/-- The job fails when its data could not be fetched. -/
theorem evalsTo_launch_unfetched (lib : Library) (settings : WorkerSettings) {job : Job}
    {t : List (Sigma Call.Resp)} {m : String} {w₁ : World} {ys : ℕ → Choice}
    (hstatus : job.status = .initializing)
    (hfetch : EvalsTo (World.exec false) xs w
      (fetchForJob lib settings job s!"{settings.workdir}/{job.id}") t (.error (.datasetFetch m)) w₁
      ys)
    (hquiet : ∀ x ∈ t, startsContainer x.1 = false) :
    ∃ t' later w' zs, EvalsTo (World.exec false) xs w (launch lib settings job) t'
        (.ok (some (failed later s!"Failed to fetch dataset: {m}" job))) w' zs ∧
      (∀ x ∈ t', startsContainer x.1 = false) ∧
      w'.jobs = w₁.jobs.put (failed later s!"Failed to fetch dataset: {m}" job) ∧
      w'.users = w₁.users := by
  unfold launch
  obtain ⟨t', w', zs, hfail, hquiet', hjobs, husers⟩ := evalsTo_failDuringStart ys w₁ hstatus
    s!"Failed to fetch dataset: {m}"
  refine ⟨_, _, w', zs, hfetch.attempt.bind hfail, ?_, hjobs, husers⟩
  simpa only [List.mem_append, or_imp, forall_and] using ⟨hquiet, hquiet'⟩

theorem evalsTo_launch (lib : Library) (settings : WorkerSettings) {job : Job}
    {t : List (Sigma Call.Resp)} {r : Except Exc FetchedDataset} {w₁ : World} {ys : ℕ → Choice}
    (hstatus : job.status = .initializing) (hids : NewIds w₁ ys)
    (hfetch : EvalsTo (World.exec false) xs w
      (fetchForJob lib settings job s!"{settings.workdir}/{job.id}") t r w₁ ys)
    (hquiet : ∀ x ∈ t, startsContainer x.1 = false)
    (hhandled : ∀ e, r = .error e → ∃ m, e = .datasetFetch m) :
    ∃ t' new w' zs, EvalsTo (World.exec false) xs w (launch lib settings job) t' (.ok (some new)) w'
        zs ∧ Launched settings job r t' new ∧ w'.jobs = w₁.jobs.put new ∧ w'.users = w₁.users := by
  cases r with
  | error e =>
    obtain ⟨m, rfl⟩ := hhandled e rfl
    obtain ⟨t', later, w', zs, hrun, hquiet', hjobs, husers⟩ :=
      evalsTo_launch_unfetched lib settings hstatus hfetch hquiet
    exact ⟨t', _, w', zs, hrun, .unfetched hquiet', hjobs, husers⟩
  | ok dataset =>
    unfold launch
    obtain ⟨hmountJobs, hmountUsers, hmountContainers⟩ :=
      jobs_prepareMounts w₁ (ys 0).time (specFor settings job dataset)
    cases hfault : (ys 0).fault with
    | some e =>
      have hexec : World.exec false (ys 0) w₁ (.dockerRun (specFor settings job dataset)) =
          some (.error e, (w₁.prepareMounts (ys 0).time (specFor settings job dataset)).record
            (.ran (specFor settings job dataset).jobId?)) := by
        simp only [World.exec, hfault]
      obtain ⟨t', w', zs, hfail, hquiet', hjobs, husers⟩ := evalsTo_failDuringStart
        (fun n => ys (n + 1)) ((w₁.prepareMounts (ys 0).time (specFor settings job dataset)).record
          (.ran (specFor settings job dataset).jobId?)) hstatus
        s!"Failed to start training container: {e.str}"
      refine ⟨_, _, w', zs, hfetch.attempt.bind (.step hexec hfail), .refused hquiet hquiet', ?_, ?_⟩
      · rw [hjobs, ← hmountJobs]
        rfl
      · rw [husers, ← hmountUsers]
        rfl
    | none =>
      have hfresh : ¬ ((ys 0).text = "" ∨ (w₁.containers.get? (ys 0).text).isSome = true) := by
        rw [(hids 0).2]
        simpa using (hids 0).1
      have hexec : World.exec false (ys 0) w₁ (.dockerRun (specFor settings job dataset)) =
          some (.ok (ys 0).text,
            ((w₁.prepareMounts (ys 0).time (specFor settings job dataset)).runContainer
              (specFor settings job dataset) (ys 0).text).record
                (.ran (specFor settings job dataset).jobId?)) := by
        simp only [World.exec, hfault, if_neg hfresh]
      refine ⟨_, _, _, _, hfetch.attempt.bind (.step hexec (.step rfl .pure)),
        .running hquiet ?_, ?_, ?_⟩
      · simp [startsContainer]
      · rw [← hmountJobs]
        rfl
      · rw [← hmountUsers]
        rfl

theorem evalsTo_launch_raise {lib : Library} {settings : WorkerSettings} {job : Job}
    {t : List (Sigma Call.Resp)} {e : Exc} {w₁ : World} {ys : ℕ → Choice}
    (hfetch : EvalsTo (World.exec false) xs w
      (fetchForJob lib settings job s!"{settings.workdir}/{job.id}") t (.error e) w₁ ys)
    (hnot : ∀ m, e ≠ .datasetFetch m) :
    EvalsTo (World.exec false) xs w (launch lib settings job) (t ++ []) (.error e) w₁ ys := by
  unfold launch
  cases e with
  | datasetFetch m => exact absurd rfl (hnot m)
  | _ => exact hfetch.attempt.bind .raise

end TrainVla.JobPoller
