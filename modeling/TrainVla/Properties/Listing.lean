import TrainVla.Properties.QueueOrder

/-! A listing reads the job store twice, and others may write in between. -/
namespace TrainVla

open Interaction Store

namespace Listing

open QueueOrder

/-- What a listing returns whose first read finds the world `w` and whose second one finds `w'`. -/
def returned (D : Deployment) (userId : String) (o o' : Choice) (w w' : World) :
    Option (List JobService.JobView) := do
  let (_, p, _) ← D.system.advance (.listJobs userId) o w (JobService.listJobsForUser userId)
  let (_, p, _) ← D.system.advance (.listJobs userId) o' w' p
  p.result?

/-- The second part of a listing. -/
def combine (w w' : World) (userId : String) : Except Exc (List JobService.JobView) :=
  (w.jobs.listForUser userId).mapM
    (JobService.viewOf ((w'.jobs.listByStatuses [.queued]).map Job.id))

/-- Whoever waits in the queue at the first read is still there at the second. -/
def StillQueued (userId : String) (w w' : World) : Prop :=
  ∀ job ∈ w.jobs, job.userId = userId → job.status = .queued →
    ∃ later ∈ w'.jobs, later.id = job.id ∧ later.status = .queued

/-- A listing between its two reads. -/
def rest (userId : String) (w : World) : Service (List JobService.JobView) := do
  let queued ← perform (.jobsListByStatuses [.queued])
  Prog.ofExcept ((w.jobs.listForUser userId).mapM (JobService.viewOf (queued.map Job.id)))

theorem advance_first (D : Deployment) (userId : String) (o : Choice) (w : World) :
    D.system.advance (.listJobs userId) o w ((Op.listJobs userId).code D) =
      some (⟨.listJobs userId, w, .jobsListForUser userId, w⟩, (rest userId w).discard, w) := rfl

theorem advance_second (D : Deployment) (userId : String) (o : Choice) (w w' : World) :
    D.system.advance (.listJobs userId) o w' (rest userId w).discard =
      some (⟨.listJobs userId, w', .jobsListByStatuses [.queued], w'⟩,
        (Prog.ofExcept (combine w w' userId)).discard, w') := rfl

theorem returned_eq (D : Deployment) (userId : String) (o o' : Choice) (w w' : World) :
    returned D userId o o' w w' = (Prog.ofExcept (combine w w' userId) : Service _).result? := rfl

theorem mem_queuedIds {w : World} {jobId : String} :
    jobId ∈ (w.jobs.listByStatuses [.queued]).map Job.id ↔
      ∃ job ∈ w.jobs, job.id = jobId ∧ job.status = .queued := by
  rw [List.mem_map]
  constructor
  · rintro ⟨job, hjob, hid⟩
    obtain ⟨hmem, hstatus⟩ := JobTable.mem_listByStatuses.mp hjob
    exact ⟨job, hmem, hid, by simpa using hstatus⟩
  · rintro ⟨job, hmem, hid, hstatus⟩
    exact ⟨job, JobTable.mem_listByStatuses.mpr ⟨hmem, by simp [hstatus]⟩, hid⟩

theorem ok_of_mapM_ok {α β ε : Type} {f : α → Except ε β} {xs : List α} {ys : List β}
    (h : xs.mapM f = .ok ys) : ∀ x ∈ xs, ∃ y, f x = .ok y := by
  induction xs generalizing ys with
  | nil => simp
  | cons x xs ih =>
    rw [List.mapM_cons] at h
    cases hx : f x with
    | error e =>
      rw [hx] at h
      cases h
    | ok y =>
      cases hxs : xs.mapM f with
      | error e => simp [hx, hxs, bind, Except.bind] at h
      | ok rest => exact List.forall_mem_cons.mpr ⟨⟨y, hx⟩, ih hxs⟩

/-- A view of a queued job needs its place. -/
theorem mem_of_viewOf_ok {queuedIds : List String} {job : Job} {view : JobService.JobView}
    (h : JobService.viewOf queuedIds job = .ok view) (hq : job.status = .queued) :
    job.id ∈ queuedIds := by
  unfold JobService.viewOf at h
  rw [if_pos hq] at h
  cases hindex : queuedIds.idxOf? job.id with
  | none =>
    rw [hindex] at h
    cases h
  | some i =>
    have hsome : (queuedIds.idxOf? job.id).isSome = true := by rw [hindex, Option.isSome_some]
    exact List.isSome_idxOf?.mp hsome

theorem mem_of_combine_ok {w w' : World} {userId : String} {views : List JobService.JobView}
    (h : combine w w' userId = .ok views) : ∀ job ∈ w.jobs.listForUser userId,
    job.status = .queued → job.id ∈ (w'.jobs.listByStatuses [.queued]).map Job.id := by
  intro job hjob hq
  obtain ⟨view, hview⟩ := ok_of_mapM_ok h job hjob
  exact mem_of_viewOf_ok hview hq

theorem combine_ok_iff {w w' : World} {userId : String} :
    (∃ views, combine w w' userId = .ok views) ↔ StillQueued userId w w' := by
  constructor
  · rintro ⟨views, hviews⟩ job hjob howner hstatus
    have hlisted := JobTable.mem_listForUser.mpr ⟨hjob, howner⟩
    exact mem_queuedIds.mp (mem_of_combine_ok hviews job hlisted hstatus)
  · intro h
    refine ⟨_, mapM_viewOf fun job hjob hstatus => ?_⟩
    obtain ⟨hmem, howner⟩ := JobTable.mem_listForUser.mp hjob
    exact mem_queuedIds.mpr (h job hmem howner hstatus)

/-- One view for each job that the first read has found, in its order. -/
theorem map_job_of_combine {w w' : World} {userId : String} {views : List JobService.JobView}
    (h : combine w w' userId = .ok views) :
    views.map JobService.JobView.job = w.jobs.listForUser userId := by
  have hmem := mem_of_combine_ok h
  unfold combine at h
  rw [mapM_viewOf hmem] at h
  rw [← Except.ok.inj h]
  exact map_job_viewAt _ _

end Listing

open Listing

/-- In every run, whatever the others do between the two reads of a listing: it returns, with one
view for each job of the first read, exactly if all jobs that were queued then still are. -/
theorem listing_returns_iff (D : Deployment) {c c₁ c₂ c₃ : SysConf} {i : ℕ} {userId : String}
    {o o' : Choice} {ls : List SysLabel} {rs₁ rs₂ rs₃ : List SysRecord}
    (hlisting : c.pool[i]? = some (.listJobs userId, (Op.listJobs userId).code D))
    (hfirst : D.system.step c (.serve i o) = some (rs₁, c₁))
    (hr : D.system.run c₁ ls = some (rs₂, c₂)) (hothers : ∀ x, .serve i x ∉ ls)
    (hsecond : D.system.step c₂ (.serve i o') = some (rs₃, c₃)) :
    (c₃.pool[i]? = some (.listJobs userId, .pure ()) ∧
      ∃ views, returned D userId o o' c.state c₂.state = some views ∧
        views.map JobService.JobView.job = c.state.jobs.listForUser userId) ↔
    ∀ job ∈ c.state.jobs, job.userId = userId → job.status = .queued →
      ∃ later ∈ c₂.state.jobs, later.id = job.id ∧ later.status = .queued := by
  obtain ⟨op, p, r, p₁, s₁, hentry, ha, -, rfl⟩ := Machine.step_serve hfirst
  obtain ⟨rfl, rfl⟩ := Prod.mk.inj (Option.some.inj (hentry.symm.trans hlisting))
  have hlt : i < c.pool.length := (List.getElem?_eq_some_iff.mp hlisting).1
  -- the request waits while the others go on
  have hwaits := Machine.pool_of_not_served hr (List.getElem?_set_self hlt) hothers
  obtain ⟨op, q, r', p₂, s₂, hentry', ha', -, rfl⟩ := Machine.step_serve hsecond
  obtain ⟨rfl, rfl⟩ := Prod.mk.inj (Option.some.inj (hentry'.symm.trans hwaits))
  have hlt' : i < c₂.pool.length := (List.getElem?_eq_some_iff.mp hentry').1
  rw [advance_first, Option.some.injEq, Prod.mk.injEq, Prod.mk.injEq] at ha
  obtain ⟨-, rfl, rfl⟩ := ha
  rw [advance_second, Option.some.injEq, Prod.mk.injEq, Prod.mk.injEq] at ha'
  obtain ⟨-, rfl, rfl⟩ := ha'
  have hiff := @combine_ok_iff c.state c₂.state userId
  dsimp only
  rw [List.getElem?_set_self hlt', Option.some.injEq, Prod.mk.injEq, returned_eq]
  refine Iff.trans ?_ hiff
  cases hcombine : combine c.state c₂.state userId with
  | error e =>
    constructor
    · rintro ⟨⟨-, hreturned⟩, -⟩
      cases hreturned
    · rintro ⟨views, hviews⟩
      cases hviews
  | ok views =>
    constructor
    · exact fun _ => ⟨views, rfl⟩
    · exact fun _ => ⟨⟨rfl, rfl⟩, views, rfl, map_job_of_combine hcombine⟩

namespace Listing

/-- A user has a job in the queue and starts to list. -/
def asked : List SysLabel := Run.create "j" ++ [.spawn (.listJobs "user"), .serve 1 {}]

def startsJob : List SysLabel := .start .pollerTick :: List.replicate 12 (.work { text := "c" })

def raised (entry : Op × Service Unit) : Bool :=
  match entry.2 with
  | .raise _ => true
  | _ => false

/-- The user starts to list. -/
def listing (c : SysConf) : SysConf :=
  { c with pool := c.pool ++ [(.listJobs "user", (Op.listJobs "user").code .sample)] }

def asksToCancel : List SysLabel := .spawn (.requestCancel "user" "j") :: List.replicate 3 (.serve 2 {})

end Listing

/-- The poller starts the job between the two reads. -/
theorem listing_returns_fails : ¬ ∀ (ls : List SysLabel) (rs : List SysRecord) (c : SysConf),
    (∀ x, .serve 1 x ∉ ls) →
    Deployment.sample.system.run (.initial .sample) (asked ++ ls ++ [.serve 1 {}]) = some (rs, c) →
    c.pool[1]? = some (.listJobs "user", .pure ()) := by
  intro h
  have hrun : (Deployment.sample.system.run (.initial .sample)
      (asked ++ startsJob ++ [.serve 1 {}])).any (fun out => (out.2.pool[1]?).any raised) = true := by rfl
  obtain ⟨⟨rs, c⟩, hr, hraised⟩ := (Option.any_eq_true _ _).mp hrun
  have hreturned := h startsJob rs c (by simp [startsJob]) hr
  rw [hreturned] at hraised
  cases hraised

/-- A request to cancel leaves the job in the queue. -/
theorem listing_returns_iff_queued : ∃ c c₁ c₂ c₃ rs₁ rs₂ rs₃,
    Deployment.sample.system.step c (.serve 1 {}) = some (rs₁, c₁) ∧
    Deployment.sample.system.run c₁ asksToCancel = some (rs₂, c₂) ∧
    Deployment.sample.system.step c₂ (.serve 1 {}) = some (rs₃, c₃) ∧
    c₃.pool[1]? = some (.listJobs "user", .pure ()) := by
  have hrun : (Deployment.sample.system.run (.initial .sample) (Run.create "j")).any (fun out =>
      out.2.pool.length = 1 &&
        (Deployment.sample.system.step (listing out.2) (.serve 1 {})).any fun out₁ =>
        (Deployment.sample.system.run out₁.2 asksToCancel).any fun out₂ =>
        (Deployment.sample.system.step out₂.2 (.serve 1 {})).isSome &&
          out.2.state.jobs.rows.all fun job => out₂.2.state.jobs.rows.any fun later =>
            later.id = job.id && later.status = .queued) = true := by rfl
  obtain ⟨⟨rs, c⟩, -, hrest⟩ := (Option.any_eq_true _ _).mp hrun
  obtain ⟨hlength, hrest⟩ := Bool.and_eq_true_iff.mp hrest
  obtain ⟨⟨rs₁, c₁⟩, hfirst, hrest⟩ := (Option.any_eq_true _ _).mp hrest
  obtain ⟨⟨rs₂, c₂⟩, hr, hrest⟩ := (Option.any_eq_true _ _).mp hrest
  obtain ⟨hsecond, hqueued⟩ := Bool.and_eq_true_iff.mp hrest
  obtain ⟨⟨rs₃, c₃⟩, hsecond⟩ := Option.isSome_iff_exists.mp hsecond
  have hlisting : (listing c).pool[1]? =
      some (.listJobs "user", (Op.listJobs "user").code .sample) := by
    have hone : c.pool.length = 1 := of_decide_eq_true hlength
    simp [listing, hone]
  have hstill : StillQueued "user" c.state c₂.state := by
    intro job hjob _ _
    obtain ⟨later, hlater, hsame⟩ := List.any_eq_true.mp (List.all_eq_true.mp hqueued job hjob)
    obtain ⟨hid, hstatus⟩ := Bool.and_eq_true_iff.mp hsame
    exact ⟨later, hlater, of_decide_eq_true hid, of_decide_eq_true hstatus⟩
  have hreturns := listing_returns_iff .sample hlisting hfirst hr (by simp [asksToCancel]) hsecond
  exact ⟨listing c, c₁, c₂, c₃, rs₁, rs₂, rs₃, hfirst, hr, hsecond, (hreturns.mpr hstill).1⟩

end TrainVla
