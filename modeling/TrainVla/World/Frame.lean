import TrainVla.World.Calls

/-! What a call leaves alone. -/
namespace TrainVla

namespace Call

def writesJobs : Call → Bool
  | jobsCreate _ | jobsUpdate .. => true
  | _ => false

def writesUsers : Call → Bool
  | usersUpdate .. | usersCreate _ => true
  | _ => false

def movesContainers : Call → Bool
  | dockerRun _ | dockerKill _ => true
  | _ => false

def movesClock : Call → Bool
  | now => true
  | _ => false

def makesJobDir : Call → Bool
  | makeJobDir _ | dockerRun _ => true
  | _ => false

def removesJobDir : Call → Bool
  | removeJobDir _ => true
  | _ => false

def issuesTarget : Call → Bool
  | storageGenerateUploadUrl .. => true
  | _ => false

def writesObjects : Call → Bool
  | storageDelete _ | storageUploadFile .. => true
  | _ => false

/-- The entries that a call may add to the history. -/
def logs : Call → Entry → Prop
  | jobsCreate job, entry | jobsUpdate _ job, entry => ∃ time old, entry = .wrote time old job
  | usersUpdate (some jobId) _ user, entry => entry = .charged jobId user.id
  | dockerRun spec, entry => entry = .ran spec.jobId?
  | storageOpenReadStream purpose objectPath, entry => ∃ data, entry = .opened purpose objectPath data
  | storageUploadFile objectPath jobId, entry => ∃ data, entry = .uploaded objectPath jobId data
  | hubDownloadDataset repoId _, entry => ∃ files, entry = .downloaded repoId files
  | _, _ => False

theorem not_wrote_of_logs {c : Call} (hc : c.writesJobs = false) {time : ℤ} {old : Option Job}
    {job : Job} : ¬ c.logs (.wrote time old job) := by
  intro h
  cases c with
  | jobsCreate _ => cases hc
  | jobsUpdate _ _ => cases hc
  | usersUpdate charge seen user => cases charge <;> cases h
  | dockerRun spec => cases h
  | storageOpenReadStream purpose objectPath =>
    obtain ⟨data, heq⟩ := h
    cases heq
  | storageUploadFile objectPath jobId =>
    obtain ⟨data, heq⟩ := h
    cases heq
  | hubDownloadDataset repoId dirName =>
    obtain ⟨files, heq⟩ := h
    cases heq
  | _ => exact h

end Call

/-- What is read off the history does not change by entries that it takes no notice of. -/
theorem filterMap_append_of_none {β : Type} {f : Entry → Option β} {entries log : List Entry}
    (h : ∀ entry ∈ entries, f entry = none) : (entries ++ log).filterMap f = log.filterMap f := by
  rw [List.filterMap_append, List.filterMap_eq_nil_iff.mpr h, List.nil_append]

/-- Entries about objects and datasets. -/
def Entry.Foreign : Entry → Prop
  | .opened .. => True
  | .stored .. => True
  | .uploaded .. => True
  | .downloaded .. => True
  | _ => False

theorem Call.foreign_of_logs {c : Call} (hjobs : c.writesJobs = false)
    (husers : c.writesUsers = false) (hcontainers : c.movesContainers = false) {entry : Entry}
    (h : c.logs entry) : entry.Foreign := by
  cases c with
  | jobsCreate _ => cases hjobs
  | jobsUpdate _ _ => cases hjobs
  | usersUpdate _ _ _ => cases husers
  | dockerRun _ => cases hcontainers
  | storageOpenReadStream purpose objectPath =>
    obtain ⟨data, rfl⟩ := h
    trivial
  | storageUploadFile objectPath jobId =>
    obtain ⟨data, rfl⟩ := h
    trivial
  | hubDownloadDataset repoId dirName =>
    obtain ⟨files, rfl⟩ := h
    trivial
  | usersCreate _ => cases husers
  | _ => exact h.elim

namespace World

/-- What stays the same, and what the history may have gained. -/
structure Frame (w w' : World) (c : Call) : Prop where
  jobs : c.writesJobs = false → w'.jobs = w.jobs
  users : c.writesUsers = false → w'.users = w.users
  containers : c.movesContainers = false → w'.containers = w.containers
  clock : c.movesClock = false → w'.clock = w.clock
  objects : c.writesObjects = false → w'.objects = w.objects
  progress : c.removesJobDir = false → ∀ jobId, w'.progressFile jobId = w.progressFile jobId
  cleared : c.makesJobDir = false → ∀ jobId, w.jobDirs.get? jobId = none →
    w'.jobDirs.get? jobId = none
  targets : c.issuesTarget = false → w'.uploadTargets = w.uploadTargets
  log : ∃ entries, w'.log = entries ++ w.log ∧ ∀ entry ∈ entries, c.logs entry

variable {steady : Bool} {o : Choice} {w w' : World} {c : Call}

theorem Frame.same : Frame w w c := ⟨fun _ => rfl, fun _ => rfl, fun _ => rfl, fun _ => rfl,
  fun _ => rfl, fun _ _ => rfl, fun _ _ => id, fun _ => rfl, [], rfl, by simp⟩

/-- The history only grows. -/
theorem Frame.suffix (h : Frame w w' c) : w.log <:+ w'.log := by
  obtain ⟨entries, hlog, -⟩ := h.log
  exact ⟨entries, hlog.symm⟩

theorem makeJobDir_eq (w : World) (jobId : String) :
    ∃ dirs, w.makeJobDir jobId = { w with jobDirs := dirs } := by
  unfold makeJobDir
  split
  · exact ⟨w.jobDirs, rfl⟩
  · exact ⟨_, rfl⟩

theorem makeCacheDirs_eq (mtime : ℤ) (w : World) (names : List String) :
    ∃ cache, names.foldl (makeCacheDir mtime) w = { w with cache := cache } := by
  induction names generalizing w with
  | nil => exact ⟨w.cache, rfl⟩
  | cons name names ih =>
    obtain ⟨cache, hrest⟩ := ih (w.makeCacheDir mtime name)
    have hfirst : ∃ cache', w.makeCacheDir mtime name = { w with cache := cache' } := by
      unfold makeCacheDir
      split
      · exact ⟨w.cache, rfl⟩
      · exact ⟨_, rfl⟩
    obtain ⟨cache', hfirst⟩ := hfirst
    rw [hfirst] at hrest
    rw [List.foldl_cons, hfirst]
    exact ⟨cache, hrest⟩

theorem prepareMounts_of_jobId {spec : ContainerSpec} {jobId : String}
    (h : spec.jobId? = some jobId) (w : World) (mtime : ℤ) :
    ∃ cache, w.prepareMounts mtime spec = { w.makeJobDir jobId with cache := cache } := by
  unfold prepareMounts
  rw [h]
  exact makeCacheDirs_eq mtime (w.makeJobDir jobId) spec.cacheMounts

theorem prepareMounts_eq (w : World) (mtime : ℤ) (spec : ContainerSpec) :
    ∃ dirs cache, w.prepareMounts mtime spec = { w with jobDirs := dirs, cache := cache } := by
  cases h : spec.jobId? with
  | none =>
    obtain ⟨cache, hcache⟩ := makeCacheDirs_eq mtime w spec.cacheMounts
    unfold prepareMounts
    rw [h]
    exact ⟨w.jobDirs, cache, hcache⟩
  | some jobId =>
    obtain ⟨cache, hcache⟩ := prepareMounts_of_jobId h w mtime
    obtain ⟨dirs, hdirs⟩ := makeJobDir_eq w jobId
    rw [hcache, hdirs]
    exact ⟨dirs, cache, rfl⟩

/-- Where the mounted datasets are there, the cache stays as it is. -/
theorem prepareMounts_of_present {spec : ContainerSpec}
    (h : ∀ name ∈ spec.cacheMounts, (w.cache.get? name).isSome = true) (mtime : ℤ) :
    ∃ dirs, w.prepareMounts mtime spec = { w with jobDirs := dirs } := by
  have hkeep : ∀ names : List String, (∀ name ∈ names, (w.cache.get? name).isSome = true) →
      ∀ dirs, names.foldl (makeCacheDir mtime) { w with jobDirs := dirs } =
        { w with jobDirs := dirs } := by
    intro names hnames dirs
    induction names with
    | nil => rfl
    | cons name names ih =>
      rw [List.forall_mem_cons] at hnames
      obtain ⟨child, hchild⟩ := Option.isSome_iff_exists.mp hnames.1
      have hfirst : makeCacheDir mtime { w with jobDirs := dirs } name =
          { w with jobDirs := dirs } := by
        unfold makeCacheDir
        dsimp only
        rw [hchild]
      rw [List.foldl_cons, hfirst]
      exact ih hnames.2
  unfold prepareMounts
  cases spec.jobId? with
  | none => exact ⟨w.jobDirs, hkeep _ h w.jobDirs⟩
  | some jobId =>
    obtain ⟨dirs, hdirs⟩ := makeJobDir_eq w jobId
    dsimp only
    rw [hdirs]
    exact ⟨dirs, hkeep _ h dirs⟩

theorem progressFile_makeJobDir (w : World) (jobId j : String) :
    (w.makeJobDir jobId).progressFile j = w.progressFile j := by
  unfold makeJobDir
  split
  · rfl
  · rename_i hnone
    unfold progressFile
    by_cases hj : j = jobId
    · rw [hj, hnone, Store.Table.get?_put, if_pos rfl]
      rfl
    · rw [Store.Table.get?_put_of_ne hj]

theorem progressFile_prepareMounts (w : World) (mtime : ℤ) (spec : ContainerSpec) (j : String) :
    (w.prepareMounts mtime spec).progressFile j = w.progressFile j := by
  cases h : spec.jobId? with
  | none =>
    obtain ⟨cache, hcache⟩ := makeCacheDirs_eq mtime w spec.cacheMounts
    unfold prepareMounts
    rw [h]
    dsimp only
    rw [hcache]
    rfl
  | some jobId =>
    obtain ⟨cache, hcache⟩ := prepareMounts_of_jobId h w mtime
    rw [hcache]
    exact progressFile_makeJobDir w jobId j

theorem exec_usersCreate {user : User} {u : Unit}
    (h : World.exec steady o w (.usersCreate user) = some (u, w')) :
    w' = { w with users := w.users.put user } ∧ w.users.get? user.id = none := by
  simp only [World.exec] at h
  split at h
  · cases h
  · rename_i hfresh
    obtain ⟨-, rfl⟩ := Prod.mk.inj (Option.some.inj h)
    exact ⟨rfl, by simpa using hfresh⟩

/-- A download touches the cache directory only. -/
theorem exec_hubDownloadDataset {repoId dirName : String} {r : Except Exc Unit}
    (h : World.exec steady o w (.hubDownloadDataset repoId dirName) = some (r, w')) :
    ∃ cache, w' = { w with cache := cache } ∨
      ∃ files, w' = { w with cache := cache, log := .downloaded repoId files :: w.log } := by
  simp only [World.exec] at h
  split at h <;> obtain ⟨-, rfl⟩ := Prod.mk.inj (Option.some.inj h)
  · exact ⟨w.cache, .inl rfl⟩
  · exact ⟨_, .inl rfl⟩
  · exact ⟨_, .inr ⟨_, rfl⟩⟩

theorem exec_cacheTouch {name : String} {r : Except Exc Unit}
    (h : World.exec steady o w (.cacheTouch name) = some (r, w')) :
    ∃ cache, w' = { w with cache := cache } := by
  simp only [World.exec] at h
  split at h <;> obtain ⟨-, rfl⟩ := Prod.mk.inj (Option.some.inj h)
  · exact ⟨w.cache, rfl⟩
  · exact ⟨_, rfl⟩
  · exact ⟨w.cache, rfl⟩

theorem exec_cacheReplace {source target : String} {r : Except Exc Unit}
    (h : World.exec steady o w (.cacheReplace source target) = some (r, w')) :
    ∃ cache, w' = { w with cache := cache } := by
  simp only [World.exec] at h
  split at h
  · obtain ⟨-, rfl⟩ := Prod.mk.inj (Option.some.inj h)
    exact ⟨w.cache, rfl⟩
  · obtain ⟨-, rfl⟩ := Prod.mk.inj (Option.some.inj h)
    exact ⟨w.cache, rfl⟩
  · split at h <;> obtain ⟨-, rfl⟩ := Prod.mk.inj (Option.some.inj h)
    · exact ⟨w.cache, rfl⟩
    · exact ⟨_, rfl⟩

theorem exec_frame {r : c.Resp} (h : World.exec steady o w c = some (r, w')) : Frame w w' c := by
  cases c with
  | now =>
    simp only [World.exec] at h
    split at h
    · cases h
    · obtain ⟨-, rfl⟩ := Prod.mk.inj (Option.some.inj h)
      exact ⟨fun _ => rfl, fun _ => rfl, fun _ => rfl, by simp [Call.movesClock], fun _ => rfl,
        fun _ _ => rfl, fun _ _ => id, fun _ => rfl, [], rfl, by simp⟩
  | jobsCreate job =>
    simp only [World.exec] at h
    split at h
    · cases h
    · obtain ⟨-, rfl⟩ := Prod.mk.inj (Option.some.inj h)
      exact ⟨by simp [Call.writesJobs], fun _ => rfl, fun _ => rfl, fun _ => rfl, fun _ => rfl,
        fun _ _ => rfl, fun _ _ => id, fun _ => rfl, [_], rfl, by simp [Call.logs]⟩
  | jobsUpdate seen job =>
    obtain ⟨-, rfl⟩ := Prod.mk.inj (Option.some.inj h)
    exact ⟨by simp [Call.writesJobs], fun _ => rfl, fun _ => rfl, fun _ => rfl, fun _ => rfl,
      fun _ _ => rfl, fun _ _ => id, fun _ => rfl, [_], rfl, by simp [Call.logs]⟩
  | usersUpdate charge seen user =>
    obtain ⟨-, rfl⟩ := Prod.mk.inj (Option.some.inj h)
    refine ⟨fun _ => rfl, by simp [Call.writesUsers], fun _ => rfl, fun _ => rfl, fun _ => rfl,
      fun _ _ => rfl, fun _ _ => id, fun _ => rfl, _, rfl, ?_⟩
    cases charge <;> simp [Call.logs]
  | storageOpenReadStream purpose objectPath =>
    simp only [World.exec] at h
    split at h
    · obtain ⟨-, rfl⟩ := Prod.mk.inj (Option.some.inj h)
      exact ⟨fun _ => rfl, fun _ => rfl, fun _ => rfl, fun _ => rfl, fun _ => rfl,
        fun _ _ => rfl, fun _ _ => id, fun _ => rfl, [_], rfl, by simp [Call.logs]⟩
    · obtain ⟨-, rfl⟩ := Prod.mk.inj (Option.some.inj h)
      exact .same
  | storageDelete objectPath =>
    obtain ⟨-, rfl⟩ := Prod.mk.inj (Option.some.inj h)
    exact ⟨fun _ => rfl, fun _ => rfl, fun _ => rfl, fun _ => rfl, by simp [Call.writesObjects],
      fun _ _ => rfl, fun _ _ => id, fun _ => rfl, [], rfl, by simp⟩
  | storageUploadFile objectPath jobId =>
    simp only [World.exec] at h
    split at h
    · obtain ⟨-, rfl⟩ := Prod.mk.inj (Option.some.inj h)
      exact .same
    · obtain ⟨-, rfl⟩ := Prod.mk.inj (Option.some.inj h)
      exact ⟨fun _ => rfl, fun _ => rfl, fun _ => rfl, fun _ => rfl, by simp [Call.writesObjects],
        fun _ _ => rfl, fun _ _ => id, fun _ => rfl, [_], rfl, by simp [Call.logs]⟩
  | storageGenerateUploadUrl objectPath contentType expiresInSeconds =>
    obtain ⟨-, rfl⟩ := Prod.mk.inj (Option.some.inj h)
    exact ⟨fun _ => rfl, fun _ => rfl, fun _ => rfl, fun _ => rfl, fun _ => rfl,
      fun _ _ => rfl, fun _ _ => id, by simp [Call.issuesTarget], [], rfl, by simp⟩
  | usersCreate user =>
    obtain ⟨rfl, -⟩ := exec_usersCreate h
    exact ⟨fun _ => rfl, by simp [Call.writesUsers], fun _ => rfl, fun _ => rfl, fun _ => rfl,
      fun _ _ => rfl, fun _ _ => id, fun _ => rfl, [], rfl, by simp⟩
  | hubDownloadDataset repoId dirName =>
    obtain ⟨cache, rfl | ⟨files, rfl⟩⟩ := exec_hubDownloadDataset h
    · exact ⟨fun _ => rfl, fun _ => rfl, fun _ => rfl, fun _ => rfl, fun _ => rfl,
        fun _ _ => rfl, fun _ _ => id, fun _ => rfl, [], rfl, by simp⟩
    · exact ⟨fun _ => rfl, fun _ => rfl, fun _ => rfl, fun _ => rfl, fun _ => rfl,
        fun _ _ => rfl, fun _ _ => id, fun _ => rfl, [_], rfl, by simp [Call.logs]⟩
  | cacheTouch name =>
    obtain ⟨cache, rfl⟩ := exec_cacheTouch h
    exact ⟨fun _ => rfl, fun _ => rfl, fun _ => rfl, fun _ => rfl, fun _ => rfl,
      fun _ _ => rfl, fun _ _ => id, fun _ => rfl, [], rfl, by simp⟩
  | cacheReplace source target =>
    obtain ⟨cache, rfl⟩ := exec_cacheReplace h
    exact ⟨fun _ => rfl, fun _ => rfl, fun _ => rfl, fun _ => rfl, fun _ => rfl,
      fun _ _ => rfl, fun _ _ => id, fun _ => rfl, [], rfl, by simp⟩
  | cacheRmtree name =>
    obtain ⟨-, rfl⟩ := Prod.mk.inj (Option.some.inj h)
    exact ⟨fun _ => rfl, fun _ => rfl, fun _ => rfl, fun _ => rfl, fun _ => rfl,
      fun _ _ => rfl, fun _ _ => id, fun _ => rfl, [], rfl, by simp⟩
  | dockerRun spec =>
    have hprogress := progressFile_prepareMounts w o.time spec
    obtain ⟨dirs, cache, hdirs⟩ := prepareMounts_eq w o.time spec
    simp only [World.exec, hdirs] at h
    rw [hdirs] at hprogress
    split at h
    · obtain ⟨-, rfl⟩ := Prod.mk.inj (Option.some.inj h)
      exact ⟨fun _ => rfl, fun _ => rfl, fun _ => rfl, fun _ => rfl, fun _ => rfl,
        fun _ => hprogress, by simp [Call.makesJobDir], fun _ => rfl, [_], rfl, by simp [Call.logs]⟩
    · split at h
      · cases h
      · obtain ⟨-, rfl⟩ := Prod.mk.inj (Option.some.inj h)
        exact ⟨fun _ => rfl, fun _ => rfl, by simp [Call.movesContainers], fun _ => rfl,
          fun _ => rfl, fun _ => hprogress, by simp [Call.makesJobDir], fun _ => rfl, [_], rfl, by simp [Call.logs]⟩
  | dockerKill containerId =>
    simp only [World.exec] at h
    split at h <;> obtain ⟨-, rfl⟩ := Prod.mk.inj (Option.some.inj h)
    · exact ⟨fun _ => rfl, fun _ => rfl, by simp [Call.movesContainers], fun _ => rfl,
        fun _ => rfl, fun _ _ => rfl, fun _ _ => id, fun _ => rfl, [], rfl, by simp⟩
    · exact .same
  | makeJobDir jobId =>
    have hprogress := progressFile_makeJobDir w jobId
    obtain ⟨dirs, hdirs⟩ := makeJobDir_eq w jobId
    simp only [World.exec, hdirs] at h
    rw [hdirs] at hprogress
    split at h <;> obtain ⟨-, rfl⟩ := Prod.mk.inj (Option.some.inj h)
    · exact .same
    · exact ⟨fun _ => rfl, fun _ => rfl, fun _ => rfl, fun _ => rfl, fun _ => rfl,
        fun _ => hprogress, by simp [Call.makesJobDir], fun _ => rfl, [], rfl, by simp⟩
  | removeJobDir jobId =>
    obtain ⟨-, rfl⟩ := Prod.mk.inj (Option.some.inj h)
    exact ⟨fun _ => rfl, fun _ => rfl, fun _ => rfl, fun _ => rfl, fun _ => rfl,
      by simp [Call.removesJobDir], fun _ j hj => (by simp [Store.Table.get?_erase, hj]),
      fun _ => rfl, [], rfl, by simp⟩
  | _ =>
    obtain ⟨-, rfl⟩ := Prod.mk.inj (Option.some.inj h)
    exact .same

/-- Worlds that differ in files, objects, repositories and URLs only. -/
structure Alike (w w' : World) : Prop where
  jobs : w'.jobs = w.jobs
  users : w'.users = w.users
  containers : w'.containers = w.containers
  clock : w'.clock = w.clock
  log : ∃ entries, w'.log = entries ++ w.log ∧ ∀ entry ∈ entries, entry.Foreign

theorem Frame.alike (h : Frame w w' c) (hjobs : c.writesJobs = false)
    (husers : c.writesUsers = false) (hcontainers : c.movesContainers = false)
    (hclock : c.movesClock = false) : Alike w w' := by
  obtain ⟨entries, hlog, hentries⟩ := h.log
  exact ⟨h.jobs hjobs, h.users husers, h.containers hcontainers, h.clock hclock, entries, hlog,
    fun entry hmem => Call.foreign_of_logs hjobs husers hcontainers (hentries entry hmem)⟩

theorem alike_prepareMounts (w : World) (mtime : ℤ) (spec : ContainerSpec) :
    Alike w (w.prepareMounts mtime spec) := by
  obtain ⟨dirs, cache, hdirs⟩ := prepareMounts_eq w mtime spec
  rw [hdirs]
  exact ⟨rfl, rfl, rfl, rfl, [], rfl, by simp⟩

/-- The calls that change something, one by one. -/
theorem exec_now {t : ℤ} (h : World.exec steady o w .now = some (t, w')) :
    w' = { w with clock := t } ∧ (steady = true → w.clock ≤ t) := by
  simp only [World.exec] at h
  split at h
  · cases h
  · rename_i hsteady
    obtain ⟨rfl, rfl⟩ := Prod.mk.inj (Option.some.inj h)
    refine ⟨rfl, fun hs => ?_⟩
    simp only [hs, Bool.true_and, decide_eq_true_eq] at hsteady
    omega

theorem exec_jobsCreate {job : Job} {u : Unit}
    (h : World.exec steady o w (.jobsCreate job) = some (u, w')) :
    w' = w.writeJob job ∧ w.jobs.get? job.id = none := by
  simp only [World.exec] at h
  split at h
  · cases h
  · rename_i hfresh
    obtain ⟨-, rfl⟩ := Prod.mk.inj (Option.some.inj h)
    exact ⟨rfl, by simpa using hfresh⟩

theorem exec_jobsUpdate {seen job : Job} {u : Unit}
    (h : World.exec steady o w (.jobsUpdate seen job) = some (u, w')) : w' = w.writeJob job :=
  (Prod.mk.inj (Option.some.inj h)).2.symm

theorem exec_usersUpdate {charge : Option String} {seen user : User} {u : Unit}
    (h : World.exec steady o w (.usersUpdate charge seen user) = some (u, w')) :
    w' = w.writeUser charge user :=
  (Prod.mk.inj (Option.some.inj h)).2.symm

theorem exec_dockerRun {spec : ContainerSpec} {r : Except Exc String}
    (h : World.exec steady o w (.dockerRun spec) = some (r, w')) :
    ((∃ e, r = .error e) ∧ w' = (w.prepareMounts o.time spec).record (.ran spec.jobId?)) ∨
    ∃ id, r = .ok id ∧ id ≠ "" ∧ w.containers.get? id = none ∧
      w' = ((w.prepareMounts o.time spec).runContainer spec id).record (.ran spec.jobId?) := by
  simp only [World.exec] at h
  split at h
  · obtain ⟨rfl, rfl⟩ := Prod.mk.inj (Option.some.inj h)
    exact .inl ⟨⟨_, rfl⟩, rfl⟩
  · split at h
    · cases h
    · rename_i hid
      obtain ⟨rfl, rfl⟩ := Prod.mk.inj (Option.some.inj h)
      rw [not_or, Bool.not_eq_true, Option.isSome_eq_false_iff, Option.isNone_iff_eq_none] at hid
      exact .inr ⟨_, rfl, hid.1, hid.2, rfl⟩

theorem exec_dockerKill {containerId : String} {r : Except Exc Unit}
    (h : World.exec steady o w (.dockerKill containerId) = some (r, w')) :
    ((∃ e, r = .error e) ∧ w' = w) ∨ ∃ containers, w.containers.kill containerId = .ok containers ∧
      r = .ok () ∧ w' = { w with containers := containers } := by
  simp only [World.exec] at h
  split at h
  · rename_i containers hk
    obtain ⟨rfl, rfl⟩ := Prod.mk.inj (Option.some.inj h)
    exact .inr ⟨containers, hk, rfl, rfl⟩
  · obtain ⟨rfl, rfl⟩ := Prod.mk.inj (Option.some.inj h)
    exact .inl ⟨⟨_, rfl⟩, rfl⟩

theorem exec_of_kill {containerId : String} {containers : Containers}
    (h : w.containers.kill containerId = .ok containers) :
    World.exec steady o w (.dockerKill containerId) =
      some (.ok (), { w with containers := containers }) := by
  simp only [World.exec, h]

theorem exec_of_kill_error {containerId : String} {e : Exc}
    (h : w.containers.kill containerId = .error e) :
    World.exec steady o w (.dockerKill containerId) = some (.error e, w) := by
  simp only [World.exec, h]

/-- What can happen by itself. Containers do not start, and an object needs an upload target. -/
inductive Occurred (w : World) : World → Prop
  | container (containerId : String) {state : ContainerState} (hstate : state ≠ .running) :
    Occurred w { w with containers := w.containers.setState containerId state }
  | progress {dir : JobDir} (content : ProgressFile) (hdir : w.jobDirs.get? dir.jobId = some dir) :
    Occurred w { w with jobDirs := w.jobDirs.put { dir with progress := some content } }
  | put {objectPath : String} {expiry : ℤ} (data : Bytes)
    (hissued : (objectPath, expiry) ∈ w.uploadTargets) (hvalid : w.clock ≤ expiry) :
    Occurred w (w.storeObject objectPath data)
  | push (repoId : String) (files : List (String × Bytes)) :
    Occurred w { w with repos := w.repos.put (repoId, files) }

theorem occurred_of_occur {v : Event} (h : World.occur v w = some w') : Occurred w w' := by
  cases v with
  | containerExits containerId code =>
    simp only [World.occur] at h
    split at h
    · obtain rfl := Option.some.inj h
      exact .container containerId nofun
    · cases h
  | containerRemoved containerId =>
    obtain rfl := Option.some.inj h
    exact .container containerId nofun
  | progressWritten jobId content =>
    obtain ⟨dir, hdir, rfl⟩ := Option.map_eq_some_iff.mp h
    obtain rfl : dir.jobId = jobId := Store.Table.key_of_get? hdir
    exact .progress content hdir
  | clientPut objectPath data =>
    simp only [World.occur] at h
    split at h
    · rename_i hissued
      obtain rfl := Option.some.inj h
      obtain ⟨⟨path, expiry⟩, htarget, hvalid⟩ := List.any_eq_true.mp hissued
      rw [Bool.and_eq_true, beq_iff_eq, decide_eq_true_eq] at hvalid
      obtain ⟨rfl, hvalid⟩ := hvalid
      exact .put data htarget hvalid
    · cases h
  | hubPush repoId files =>
    obtain rfl := Option.some.inj h
    exact .push repoId files

/-- What happens by itself concerns containers and objects only. -/
theorem occur_frame {v : Event} (h : World.occur v w = some w') :
    w'.jobs = w.jobs ∧ w'.users = w.users ∧ w'.clock = w.clock ∧
      ∃ entries, w'.log = entries ++ w.log ∧
        ∀ entry ∈ entries, ∃ objectPath data, entry = .stored objectPath data := by
  cases occurred_of_occur h with
  | put data hissued => exact ⟨rfl, rfl, rfl, [_], rfl, by simp⟩
  | _ => exact ⟨rfl, rfl, rfl, [], rfl, by simp⟩

theorem occur_suffix {v : Event} (h : World.occur v w = some w') : w.log <:+ w'.log := by
  obtain ⟨-, -, -, entries, hlog, -⟩ := occur_frame h
  exact ⟨entries, hlog.symm⟩

/-- An object that was read was there, and the history says so. -/
theorem exec_open {purpose : ReadPurpose} {objectPath : String} {data : Bytes}
    (h : World.exec steady o w (.storageOpenReadStream purpose objectPath) = some (.ok data, w')) :
    w.objects.get? objectPath = some (objectPath, data) ∧
      w' = w.record (.opened purpose objectPath data) := by
  simp only [World.exec] at h
  split at h
  · rename_i path content hget
    obtain ⟨hdata, rfl⟩ := Prod.mk.inj (Option.some.inj h)
    obtain rfl := Except.ok.inj hdata
    obtain rfl : path = objectPath := Store.Table.key_of_get? hget
    exact ⟨hget, rfl⟩
  · obtain ⟨hdata, -⟩ := Prod.mk.inj (Option.some.inj h)
    cases hdata

theorem exec_upload {objectPath jobId : String} {r : Except Exc Unit}
    (h : World.exec steady o w (.storageUploadFile objectPath jobId) = some (r, w')) :
    ((∃ e, r = .error e) ∧ w' = w) ∨ r = .ok () ∧ w' = w.uploadFile objectPath jobId o.data := by
  simp only [World.exec] at h
  split at h <;> obtain ⟨rfl, rfl⟩ := Prod.mk.inj (Option.some.inj h)
  · exact .inl ⟨⟨_, rfl⟩, rfl⟩
  · exact .inr ⟨rfl, rfl⟩

/-- Containers exit or are removed by themselves, but do not start. -/
theorem occur_containers {v : Event} (h : World.occur v w = some w') :
    w'.containers = w.containers ∨ ∃ containerId state, state ≠ .running ∧
      w' = { w with containers := w.containers.setState containerId state } := by
  cases occurred_of_occur h with
  | container containerId hstate => exact .inr ⟨containerId, _, hstate, rfl⟩
  | _ => exact .inl rfl

end World

end TrainVla
