import TrainVla.System.AtomicProtocol
import TrainVla.Store.Queue

/-! Jobs are started in the order of their creation, and the positions that are reported are
the places in that order. -/
namespace TrainVla

open Interaction Store

namespace QueueOrder

def queued (job : Job) : Bool := job.status = .queued

/-- Later rows are not older. -/
def Chronological (jobs : JobTable) : Prop :=
  jobs.rows.Pairwise fun a b => a.createdAt ≤ b.createdAt

/-- A new job is not older than those that are there. -/
def CreatedLast (jobs : JobTable) (c : Call) : Prop :=
  ∀ job ∈ c.created?, ∀ old ∈ jobs.rows, old.createdAt ≤ job.createdAt

instance (jobs : JobTable) (c : Call) : Decidable (CreatedLast jobs c) :=
  inferInstanceAs (Decidable (∀ _ ∈ _, _))

/-- By time of creation, and in the order of creation where the times are equal. -/
def Precedes (jobs : JobTable) (a b : Job) : Prop :=
  ∃ i j : ℕ, jobs.rows[i]? = some a ∧ jobs.rows[j]? = some b ∧
    (a.createdAt < b.createdAt ∨ a.createdAt = b.createdAt ∧ i < j)

/-- No job has fallen back in the queue since the table was `jobs`. -/
def AdvancedFrom (jobs : JobTable) (w : World) : Prop := Table.Advances queued jobs w.jobs

def First (job : Job) (jobs : JobTable) : Prop := ∃ rest, jobs.queue queued = job :: rest

theorem mem_queue {jobs : JobTable} {job : Job} :
    job ∈ jobs.queue queued ↔ job ∈ jobs ∧ job.status = .queued := by
  rw [Table.mem_queue, queued, decide_eq_true_eq]

theorem Precedes.asymm {jobs : JobTable} {a b : Job} (h : Precedes jobs a b) :
    ¬ Precedes jobs b a := by
  obtain ⟨i, j, hi, hj, hij⟩ := h
  rintro ⟨j', i', hj', hi', hji⟩
  have hnodup : jobs.rows.Nodup := jobs.nodup.of_map Job.id
  have hii : i = i' :=
    (List.getElem?_inj (List.getElem?_eq_some_iff.mp hi).1 hnodup).mp (hi.trans hi'.symm)
  have hjj : j = j' :=
    (List.getElem?_inj (List.getElem?_eq_some_iff.mp hj).1 hnodup).mp (hj.trans hj'.symm)
  omega

namespace Chronological

variable {jobs : JobTable}

theorem precedes (h : Chronological jobs) : jobs.rows.Pairwise (Precedes jobs) := by
  rw [List.pairwise_iff_getElem]
  intro i j hi hj hij
  have hle := List.pairwise_iff_getElem.mp h i j hi hj hij
  refine ⟨i, j, List.getElem?_eq_getElem hi, List.getElem?_eq_getElem hj, ?_⟩
  omega

theorem queue_precedes (h : Chronological jobs) :
    (jobs.queue queued).Pairwise (Precedes jobs) :=
  h.precedes.sublist List.filter_sublist

/-- What the stable sort by time of creation makes of the rows. -/
theorem listByStatuses (h : Chronological jobs) :
    JobTable.listByStatuses jobs [.queued] = jobs.queue queued := by
  have hfilter : (jobs.rows.filter fun job => job.status ∈ [JobStatus.queued]) =
      jobs.queue queued := by
    refine List.filter_congr fun job _ => ?_
    rw [queued, decide_eq_decide, List.mem_singleton]
  unfold JobTable.listByStatuses
  rw [hfilter]
  have hqueue : (jobs.queue queued).Pairwise fun a b => a.createdAt ≤ b.createdAt :=
    h.sublist List.filter_sublist
  exact hqueue.insertionSort_eq

theorem update (h : Chronological jobs) {seen new : Job} (hseen : jobs.get? new.id = some seen)
    (hcreated : new.createdAt = seen.createdAt) : Chronological (jobs.put new) := by
  have hmap : (jobs.rows.map Job.createdAt).Pairwise fun s t => s ≤ t := List.pairwise_map.mpr h
  rw [← Table.map_rows_put Job.createdAt hseen hcreated] at hmap
  exact List.pairwise_map.mp hmap

theorem create (h : Chronological jobs) {job : Job} (hfresh : jobs.get? job.id = none)
    (hlast : CreatedLast jobs (.jobsCreate job)) : Chronological (jobs.put job) := by
  unfold Chronological
  rw [Table.rows_put_of_fresh hfresh, List.pairwise_append]
  refine ⟨h, List.pairwise_singleton _ _, fun old hold new hnew => ?_⟩
  rw [List.mem_singleton.mp hnew]
  exact hlast job rfl old hold

end Chronological

/-- No queued job precedes the first one. -/
theorem First.not_queued {jobs : JobTable} (h : Chronological jobs) {a first : Job}
    (hfirst : First first jobs) (ha : Precedes jobs a first) : a.status ≠ .queued := by
  intro hq
  obtain ⟨rest, hqueue⟩ := hfirst
  have hmem : a ∈ jobs.queue queued := by
    obtain ⟨i, j, hi, -⟩ := ha
    exact mem_queue.mpr ⟨List.mem_of_getElem? hi, hq⟩
  have hpairwise := h.queue_precedes
  rw [hqueue] at hmem hpairwise
  rcases List.mem_cons.mp hmem with rfl | hrest
  · exact ha.asymm ha
  · exact ha.asymm (List.rel_of_pairwise_cons hpairwise hrest)

/-- What the poller knows of the job that it is about to start. -/
def Knows (job : Job) (jobs : JobTable) : Stage → Prop
  | .next => First job jobs
  | .owned _ => First job jobs
  | _ => True

def protocol : AtomicProtocol where
  inv w := Chronological w.jobs
  calm _ := True
  cond _ w := CreatedLast w.jobs
  knows st job w := Knows job w.jobs st
  dated _ _ := True

theorem keeps_of_jobs {w w' : World} (h : w'.jobs = w.jobs) : protocol.Keeps w w' := by
  refine ⟨fun hi => ?_, id, fun st job _ hk => ?_⟩
  · show Chronological w'.jobs
    rw [h]
    exact hi
  · show Knows job w'.jobs st
    rw [h]
    exact hk

theorem sound {D : Deployment} : protocol.Sound D where
  alike _ _ h := keeps_of_jobs h.jobs
  tick _ _ _ := keeps_of_jobs rfl
  read _ _ := trivial
  next _ jobs _ hi _ hlist := ⟨jobs, hi.listByStatuses.symm.trans hlist⟩
  owned _ _ _ _ hfirst _ := hfirst
  dated _ _ _ _ := trivial
  sawProgress _ _ _ _ _ _ _ _ _ := ⟨trivial, fun _ => trivial⟩
  polled _ _ _ _ _ _ _ := trivial
  wrote _ _ _ _ _ _ _ hi hw hseen _ _ _ _ :=
    ⟨hi.update hseen hw.sameOrigin.createdAt, by cases hw <;> trivial, fun _ => trivial⟩
  created _ _ _ _ _ _ hi _ _ hfresh _ _ _ _ _ hlast := ⟨hi.create hfresh hlast, trivial⟩
  charged _ _ _ _ hi _ _ _ := ⟨hi, trivial, trivial⟩
  password _ _ _ _ := ⟨id, id⟩
  signedUp _ _ _ hi _ _ := ⟨hi, id⟩
  refused _ _ hi _ _ := ⟨hi, trivial, id⟩
  launched _ _ _ _ hi _ _ _ _ _ := ⟨hi, trivial⟩
  killed _ _ _ _ := ⟨id, id, fun _ _ => trivial⟩
  occur v w w' he := by
    have hjobs := (World.occur_frame he).1
    exact ⟨(keeps_of_jobs hjobs).1, id⟩

section

variable {D : Deployment} {op : Op} {o : Choice} {w w' : World} {c : Call} {r : c.Resp}

/-- A job that leaves the queue for `initializing` was the first in it. -/
theorem first_of_start {seen new stored : Job} {w : World}
    (hpre : (protocol.toProtocol D).pre D op w (.jobsUpdate seen new))
    (hstored : w.jobs.get? new.id = some stored) (hq : stored.status = .queued)
    (hnew : new.status = .initializing) : First stored w.jobs := by
  obtain ⟨st, now, st', hw, ⟨hseen, hk⟩, -, -⟩ := hpre
  rw [hw.id_eq, hseen] at hstored
  obtain rfl := Option.some.inj hstored
  cases hw with
  | start _ => exact hk
  | requestCancel _ => exact absurd (hq.symm.trans hnew) (by decide)
  | recordContainer hs => exact absurd (hq.symm.trans hs) (by decide)
  | markAlive hs => exact absurd (hq.symm.trans hs) (by decide)
  | recordProgress hs => exact absurd (hq.symm.trans hs) (by decide)
  | _ => cases hnew

/-- Whatever a call does, nobody in the queue falls back. -/
theorem advances_of_exec {jobs : JobTable} (hpre : (protocol.toProtocol D).pre D op w c)
    (he : World.exec D.steady o w c = some (r, w')) (h : AdvancedFrom jobs w) :
    AdvancedFrom jobs w' := by
  unfold AdvancedFrom at h ⊢
  cases c with
  | jobsCreate job =>
    obtain ⟨rfl, hfresh⟩ := World.exec_jobsCreate he
    exact h.put_fresh hfresh
  | jobsUpdate seen new =>
    obtain rfl := World.exec_jobsUpdate he
    obtain ⟨st, now, st', hw, ⟨hseen, -⟩, -, -⟩ := hpre
    rw [← hw.id_eq] at hseen
    refine h.put hseen fun hq => ?_
    rw [queued, decide_eq_true_eq] at hq ⊢
    exact (hw.queued_of_queued hq).2
  | _ =>
    rw [(World.exec_frame he).jobs rfl]
    exact h

end

/-- The view of a job, given the queue. -/
def viewAt (queuedIds : List String) (job : Job) : JobService.JobView where
  job := job
  displayStatus := JobService.displayStatus job.status
  queuePosition := if job.status = .queued then some (queuedIds.idxOf job.id + 1) else none

theorem viewOf_eq {queuedIds : List String} {job : Job}
    (h : job.status = .queued → job.id ∈ queuedIds) :
    JobService.viewOf queuedIds job = .ok (viewAt queuedIds job) := by
  unfold JobService.viewOf viewAt
  by_cases hq : job.status = .queued
  · rw [if_pos hq, if_pos hq]
    obtain ⟨i, hi⟩ := Option.isSome_iff_exists.mp (List.isSome_idxOf?.mpr (h hq))
    rw [List.idxOf_eq_getD_idxOf?, hi, Option.getD_some]
  · rw [if_neg hq, if_neg hq]

theorem mapM_viewOf {queuedIds : List String} {jobs : List Job}
    (h : ∀ job ∈ jobs, job.status = .queued → job.id ∈ queuedIds) :
    jobs.mapM (JobService.viewOf queuedIds) = .ok (jobs.map (viewAt queuedIds)) := by
  induction jobs with
  | nil => rfl
  | cons job jobs ih =>
    rw [List.forall_mem_cons] at h
    rw [List.mapM_cons, viewOf_eq h.1, ih h.2]
    rfl

theorem map_job_viewAt (queuedIds : List String) (jobs : List Job) :
    (jobs.map (viewAt queuedIds)).map JobService.JobView.job = jobs := by
  rw [List.map_map]
  exact List.map_id _

/-- What a user is shown in a state. -/
def listing (D : Deployment) (w : World) (userId : String) (o o' : Choice) :
    Option (List JobService.JobView) :=
  (D.system.drive (.listJobs userId) [o, o'] w (JobService.listJobsForUser userId)).bind
    fun out => out.2.1.result?

theorem listing_eq (D : Deployment) {w : World} (h : Chronological w.jobs) (userId : String)
    (o o' : Choice) : listing D w userId o o' =
      some ((w.jobs.listForUser userId).map (viewAt (w.jobs.queueKeys queued))) := by
  have hmem : ∀ job ∈ w.jobs.listForUser userId, job.status = .queued →
      job.id ∈ w.jobs.queueKeys queued := by
    intro job hjob hq
    have hstored := (JobTable.mem_listForUser.mp hjob).1
    exact Table.mem_queueKeys.mpr ⟨job, hstored, decide_eq_true hq, rfl⟩
  have hqueue : (w.jobs.listByStatuses [.queued]).map Job.id = w.jobs.queueKeys queued := by
    rw [h.listByStatuses]
    rfl
  show Prog.result? (Prog.ofExcept ((w.jobs.listForUser userId).mapM (JobService.viewOf
    ((w.jobs.listByStatuses [.queued]).map Job.id))) : Service _) = _
  rw [hqueue, mapM_viewOf hmem]
  rfl

/-- The position of a stored job is its place in the queue. -/
theorem position_iff {jobs : JobTable} {job : Job} (hjob : job ∈ jobs) {i : ℕ} :
    (viewAt (jobs.queueKeys queued) job).queuePosition = some i ↔
      0 < i ∧ (jobs.queue queued)[i - 1]? = some job := by
  unfold viewAt
  dsimp only
  rw [← Table.getElem?_queueKeys hjob]
  by_cases hq : job.status = .queued
  · have hmem : job.id ∈ jobs.queueKeys queued :=
      Table.mem_queueKeys.mpr ⟨job, hjob, decide_eq_true hq, rfl⟩
    rw [if_pos hq, Option.some.injEq]
    constructor
    · intro hi
      have hidx : i - 1 = (jobs.queueKeys queued).idxOf job.id := by omega
      refine ⟨by omega, ?_⟩
      rw [hidx]
      exact List.getElem?_idxOf hmem
    · rintro ⟨hpos, hi⟩
      obtain ⟨hlt, heq⟩ := List.getElem?_eq_some_iff.mp hi
      have hidx := (jobs.queueKeys_nodup queued).idxOf_getElem (i - 1) hlt
      rw [heq] at hidx
      omega
  · rw [if_neg hq]
    constructor
    · exact nofun
    · rintro ⟨-, hi⟩
      obtain ⟨stored, hstored, hqueued, hid⟩ := Table.mem_queueKeys.mp (List.mem_of_getElem? hi)
      rw [Table.eq_of_key_eq hstored hjob hid] at hqueued
      exact absurd (of_decide_eq_true hqueued) hq

/-- Whoever stays in the queue is shown no later position than before. -/
theorem position_le {jobs jobs' : JobTable} (h : Table.Advances queued jobs jobs')
    {job job' : Job} (hjob : job ∈ jobs) (hjob' : job' ∈ jobs') (hid : job'.id = job.id) {i i' : ℕ}
    (hi : (viewAt (jobs.queueKeys queued) job).queuePosition = some i)
    (hi' : (viewAt (jobs'.queueKeys queued) job').queuePosition = some i') : i' ≤ i := by
  unfold viewAt at hi hi'
  dsimp only at hi hi'
  split at hi
  · rename_i hq
    split at hi'
    · rename_i hq'
      have hmem : job.id ∈ jobs.queueKeys queued :=
        Table.mem_queueKeys.mpr ⟨job, hjob, decide_eq_true hq, rfl⟩
      have hmem' : job.id ∈ jobs'.queueKeys queued :=
        Table.mem_queueKeys.mpr ⟨job', hjob', decide_eq_true hq', hid⟩
      have hle := h.idxOf_le hmem hmem'
      rw [hid] at hi'
      obtain rfl := Option.some.inj hi
      obtain rfl := Option.some.inj hi'
      omega
    · cases hi'
  · cases hi

end QueueOrder

open QueueOrder

/-- In every run of whole operations in which no job is created with an earlier time than
those before it: the queue is served in the order of creation, users are shown the places in
that order, and nobody in the queue falls back. -/
theorem queue_order (D : Deployment) {w : World} {ls ls' : List SysLabel} {rs rs' : List SysRecord}
    {c c' : SysConf} (hw : Chronological w.jobs) (hl : ∀ l ∈ ls ++ ls', l.Uninterrupted)
    (hr : D.system.run (.initial w) ls = some (rs, c)) (hr' : D.system.run c ls' = some (rs', c'))
    (hlast : ∀ r ∈ rs ++ rs', CreatedLast r.before.jobs r.call) :
    (∀ r ∈ rs ++ rs', ∀ seen new stored a, r.call = .jobsUpdate seen new →
      r.before.jobs.get? new.id = some stored → stored.status = .queued →
      new.status = .initializing → Precedes r.before.jobs a stored → a.status ≠ .queued) ∧
    (∃ queue : List Job, (∀ job, job ∈ queue ↔ job ∈ c'.state.jobs ∧ job.status = .queued) ∧
      queue.Pairwise (Precedes c'.state.jobs) ∧
      ∀ userId o o', ∃ views, listing D c'.state userId o o' = some views ∧
        views.map JobService.JobView.job = c'.state.jobs.listForUser userId ∧
        ∀ view ∈ views, ∀ i, view.queuePosition = some i ↔
          0 < i ∧ queue[i - 1]? = some view.job) ∧
    ∀ userId o₁ o₂ o₃ o₄ views views', listing D c.state userId o₁ o₂ = some views →
      listing D c'.state userId o₃ o₄ = some views' →
      ∀ view ∈ views, ∀ view' ∈ views', view'.job.id = view.job.id → ∀ i i',
        view.queuePosition = some i → view'.queuePosition = some i' → i' ≤ i := by
  have hnone : ∀ r ∈ rs ++ rs', r.Known D.system ((protocol.toProtocol D).outline D) →
      CreatedLast r.before.jobs r.call := fun r hmem _ => hlast r hmem
  have hrun := Machine.run_append hr hr'
  obtain ⟨hknown, hinv', -⟩ := QueueOrder.sound.run hw trivial hl hrun hnone
  obtain ⟨-, hinv, -⟩ := QueueOrder.sound.run hw trivial
    (fun l h => hl l (List.mem_append_left _ h)) hr fun r h _ => hlast r (List.mem_append_left _ h)
  have hadvances : AdvancedFrom c.state.jobs c'.state := by
    refine (Machine.run_states hr' (fun r hmem h => ?_) (fun v w w' he h => ?_)
      Table.Advances.rfl).2
    · obtain ⟨-, hpre, o, a, he⟩ := hknown r (List.mem_append_right _ hmem)
      exact advances_of_exec hpre he h
    · unfold AdvancedFrom
      rw [(World.occur_frame he).1]
      exact h
  refine ⟨fun r hmem seen new stored a hcall hstored hq hnew ha => ?_, ?_, ?_⟩
  · have hr := hknown r hmem
    have hpre := hr.pre
    rw [hcall] at hpre
    exact First.not_queued hr.inv (first_of_start hpre hstored hq hnew) ha
  · refine ⟨c'.state.jobs.queue queued, fun job => mem_queue, hinv'.queue_precedes,
      fun userId o o' => ⟨_, listing_eq D hinv' userId o o', map_job_viewAt _ _,
        fun view hview i => ?_⟩⟩
    · obtain ⟨job, hjob, rfl⟩ := List.mem_map.mp hview
      exact position_iff (JobTable.mem_listForUser.mp hjob).1
  · intro userId o₁ o₂ o₃ o₄ views views' hviews hviews' view hview view' hview' hid i i' hi hi'
    rw [listing_eq D hinv] at hviews
    rw [listing_eq D hinv'] at hviews'
    obtain rfl := Option.some.inj hviews
    obtain rfl := Option.some.inj hviews'
    obtain ⟨job, hjob, rfl⟩ := List.mem_map.mp hview
    obtain ⟨job', hjob', rfl⟩ := List.mem_map.mp hview'
    exact position_le hadvances (JobTable.mem_listForUser.mp hjob).1
      (JobTable.mem_listForUser.mp hjob').1 hid hi hi'

namespace QueueOrder

/-- Two users create a job each at the same time, and the poller starts one. -/
def twoUsers : World where
  users := World.sample.users.put { id := "other", authProvider := .email, createdAt := 0 }

def creations : List SysLabel :=
  [.whole (.createJob "user" .act .hfHub "org/dataset" 100) (List.replicate 6 { text := "a" }),
    .whole (.createJob "other" .act .hfHub "org/dataset" 100) (List.replicate 6 { text := "b" })]

def start : List SysLabel :=
  [.whole .pollerTick (List.replicate 13 { text := "c" })]

end QueueOrder

/-- The first of them is started, and the other moves up. -/
theorem queue_order_two : ∃ rs c rs' c',
    Deployment.sample.system.run (.initial twoUsers) creations = some (rs, c) ∧
    Deployment.sample.system.run c start = some (rs', c') ∧
    c.state.jobs.queueKeys queued = ["a", "b"] ∧ c'.state.jobs.queueKeys queued = ["b"] ∧
    ∀ r ∈ rs ++ rs', ∀ seen new stored a, r.call = .jobsUpdate seen new →
      r.before.jobs.get? new.id = some stored → stored.status = .queued →
      new.status = .initializing → Precedes r.before.jobs a stored → a.status ≠ .queued := by
  have hrun : (Deployment.sample.system.run (.initial twoUsers) creations).any (fun out =>
      out.2.state.jobs.queueKeys queued = ["a", "b"] &&
        (Deployment.sample.system.run out.2 start).any fun out' =>
          out'.2.state.jobs.queueKeys queued = ["b"] &&
            (out.1 ++ out'.1).all fun r => CreatedLast r.before.jobs r.call) = true := by rfl
  obtain ⟨⟨rs, c⟩, hr, hrest⟩ := (Option.any_eq_true _ _).mp hrun
  obtain ⟨hqueue, hrest⟩ := Bool.and_eq_true_iff.mp hrest
  obtain ⟨⟨rs', c'⟩, hr', hrest⟩ := (Option.any_eq_true _ _).mp hrest
  obtain ⟨hqueue', hlast⟩ := Bool.and_eq_true_iff.mp hrest
  have hl : ∀ l ∈ creations ++ start, l.Uninterrupted := by
    simp [creations, start, Label.Uninterrupted]
  have hempty : Chronological twoUsers.jobs := List.Pairwise.nil
  have horder := queue_order .sample hempty hl hr hr' fun r hmem =>
    of_decide_eq_true (List.all_eq_true.mp hlast r hmem)
  exact ⟨rs, c, rs', c', hr, hr', of_decide_eq_true hqueue, of_decide_eq_true hqueue', horder.1⟩

end TrainVla
