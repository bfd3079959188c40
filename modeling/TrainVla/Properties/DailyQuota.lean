import TrainVla.System.AtomicProtocol
import TrainVla.Properties.ConcurrentJobs

/-! The daily quota. A job is admitted when it is created and charged when it is started,
maybe on a later day; the bound holds because its owner starts nothing else in between. -/
namespace TrainVla

open Interaction Store

namespace DailyQuota

/-- A job that left the queue to be run: on which day, and whose it is. -/
structure Start where
  date : ℤ
  userId : String
  jobId : String
  deriving DecidableEq

def startsOn (ss : List Start) (userId : String) (date : ℤ) : ℕ :=
  ss.countP fun s => s.userId = userId ∧ s.date = date

def startsOf (ss : List Start) (jobId : String) : List Start := ss.filter fun s => s.jobId = jobId

theorem startsOn_cons_self (ss : List Start) (userId jobId : String) (date : ℤ) :
    startsOn (⟨date, userId, jobId⟩ :: ss) userId date = startsOn ss userId date + 1 := by
  unfold startsOn
  rw [List.countP_cons_of_pos]
  simp

theorem startsOn_cons_of_ne {ss : List Start} {s : Start} {userId : String} {date : ℤ}
    (h : s.userId = userId → s.date ≠ date) :
    startsOn (s :: ss) userId date = startsOn ss userId date := by
  unfold startsOn
  rw [List.countP_cons_of_neg]
  simpa using h

theorem startsOf_cons_self (ss : List Start) (userId jobId : String) (date : ℤ) :
    startsOf (⟨date, userId, jobId⟩ :: ss) jobId = ⟨date, userId, jobId⟩ :: startsOf ss jobId := by
  unfold startsOf
  rw [List.filter_cons_of_pos]
  simp

theorem startsOf_cons_of_ne {ss : List Start} {s : Start} {jobId : String} (h : s.jobId ≠ jobId) :
    startsOf (s :: ss) jobId = startsOf ss jobId := by
  unfold startsOf
  rw [List.filter_cons_of_neg]
  simpa using h

/-- The document was not charged on a later day. -/
def ResetBy (user : User) (date : ℤ) : Prop := ∀ day ∈ user.quotaResetDate, day ≤ date

/-- From the day of the last charge on, the counter is the number of starts. -/
def Exact (ss : List Start) (user : User) : Prop :=
  ∀ date, ResetBy user date → effectiveDailyUsed user date = startsOn ss user.id date

theorem ResetBy.later {user : User} {date date' : ℤ} (h : ResetBy user date) (hle : date ≤ date') :
    ResetBy user date' :=
  fun day hday => (h day hday).trans hle

theorem effectiveDailyUsed_of_lt {user : User} {date date' : ℤ} (h : ResetBy user date)
    (hlt : date < date') : effectiveDailyUsed user date' = 0 := by
  unfold effectiveDailyUsed
  rw [if_pos]
  intro hreset
  have hle := h date' hreset
  omega

/-- What is free on a day is free on the days after it. -/
theorem Exact.room {ss : List Start} {user : User} {date date' : ℤ} (h : Exact ss user)
    (hreset : ResetBy user date) (hroom : effectiveDailyUsed user date < maxDailyJobs)
    (hle : date ≤ date') : startsOn ss user.id date' < maxDailyJobs := by
  rw [← h date' (hreset.later hle)]
  by_cases heq : date = date'
  · rwa [← heq]
  · have hzero : effectiveDailyUsed user date' = 0 := effectiveDailyUsed_of_lt hreset (by omega)
    rw [hzero]
    decide

/-- The charge makes up for the start. -/
theorem Exact.charge {ss : List Start} {user : User} {date : ℤ} (h : Exact ss user)
    (hreset : ResetBy user date) (jobId : String) :
    Exact (⟨date, user.id, jobId⟩ :: ss) (recordJobStarted user date) := by
  intro date' hdate'
  have hle : date ≤ date' := hdate' date rfl
  rw [recordJobStarted_id]
  by_cases heq : date = date'
  · rw [← heq, startsOn_cons_self, ← h date hreset]
    unfold effectiveDailyUsed
    rw [if_neg (by simp)]
    rfl
  · have hlt : date < date' := by omega
    have hreset' : ResetBy (recordJobStarted user date) date := by
      intro day hday
      obtain rfl := Option.some.inj hday
      omega
    rw [startsOn_cons_of_ne fun _ => heq, ← h date' (hreset.later hle),
      effectiveDailyUsed_of_lt hreset hlt, effectiveDailyUsed_of_lt hreset' hlt]

/-- Starts of others do not count. -/
theorem Exact.cons_of_ne {ss : List Start} {user : User} {s : Start} (h : Exact ss user)
    (hne : s.userId ≠ user.id) : Exact (s :: ss) user := by
  intro date hdate
  rw [startsOn_cons_of_ne fun heq => absurd heq hne]
  exact h date hdate

end DailyQuota

open DailyQuota

def Entry.start? : Entry → Option Start
  | .wrote time (some old) new =>
    if old.status = .queued ∧ new.status = .initializing then
      some { date := dateOf time, userId := new.userId, jobId := new.id }
    else none
  | _ => none

/-- The job that was cancelled while it was queued. -/
def Entry.droppedId? : Entry → Option String
  | .wrote _ (some old) new =>
    if old.status = .queued ∧ new.status = .cancelled then some new.id else none
  | _ => none

namespace DailyQuota

def starts (log : List Entry) : List Start := log.filterMap Entry.start?

def droppedIds (log : List Entry) : List String := log.filterMap Entry.droppedId?

theorem starts_append {entries log : List Entry} (h : ∀ entry ∈ entries, entry.Foreign) :
    starts (entries ++ log) = starts log := by
  refine filterMap_append_of_none fun entry hmem => ?_
  have hforeign := h entry hmem
  cases entry with
  | wrote time old new => exact hforeign.elim
  | _ => rfl

theorem droppedIds_append {entries log : List Entry} (h : ∀ entry ∈ entries, entry.Foreign) :
    droppedIds (entries ++ log) = droppedIds log := by
  refine filterMap_append_of_none fun entry hmem => ?_
  have hforeign := h entry hmem
  cases entry with
  | wrote time old new => exact hforeign.elim
  | _ => rfl

structure Inv (w : World) : Prop where
  single : ConcurrentJobs.OnePerOwner w.jobs
  bound : ∀ userId date, startsOn (starts w.log) userId date ≤ maxDailyJobs
  /-- A queued job may still be started, today or later. -/
  room : ∀ job ∈ w.jobs, job.status = .queued → ∀ date, dateOf w.clock ≤ date →
    startsOn (starts w.log) job.userId date < maxDailyJobs
  past : ∀ user ∈ w.users, ResetBy user (dateOf w.clock)
  stored : ∀ s ∈ starts w.log, ∃ job, w.jobs.get? s.jobId = some job
  once : ∀ job ∈ w.jobs, startsOf (starts w.log) job.id = [] ∨
    ∃ date, startsOf (starts w.log) job.id = [⟨date, job.userId, job.id⟩]
  queued : ∀ job ∈ w.jobs, job.status = .queued → startsOf (starts w.log) job.id = []
  begun : ∀ job ∈ w.jobs, job.status ≠ .queued → job.status ≠ .cancelled →
    startsOf (starts w.log) job.id ≠ []
  dropped : ∀ id ∈ droppedIds w.log, startsOf (starts w.log) id = [] ∧
    ∃ job, w.jobs.get? id = some job ∧ job.status = .cancelled
  known : ∀ s ∈ starts w.log, (w.users.get? s.userId).isSome = true

/-- All counters are exact. -/
def AllExact (ss : List Start) (users : UserTable) : Prop := ∀ user ∈ users, Exact ss user

/-- Between the start of a job and the charge, all but its start is accounted for. -/
structure Uncharged (before : User) (job : Job) (w : World) : Prop where
  owner : w.users.get? job.userId = some before
  begun : ∃ now ss, job.heartbeatAt = some now ∧ now ≤ w.clock ∧ ResetBy before (dateOf now) ∧
    starts w.log = ⟨dateOf now, job.userId, job.id⟩ :: ss ∧ AllExact ss w.users

def Knows (job : Job) (w : World) : Stage → Prop
  | .owned user => w.users.get? job.userId = some user
  | .started before => Uncharged before job w
  | .charged => AllExact (starts w.log) w.users
  | .launched _ => AllExact (starts w.log) w.users
  | _ => True

def protocol : AtomicProtocol where
  inv := Inv
  calm w := AllExact (starts w.log) w.users
  cond _ _ _ := True
  knows st job w := Knows job w st
  dated user today := ResetBy user (dateOf today)

/-- Time passes, and nothing happens that counts. -/
theorem Inv.later {w w' : World} (h : Inv w) (hjobs : w'.jobs = w.jobs)
    (hstarts : starts w'.log = starts w.log) (hdropped : droppedIds w'.log = droppedIds w.log)
    (hclock : w.clock ≤ w'.clock) (husers : ∀ user ∈ w'.users, ResetBy user (dateOf w'.clock))
    (hkept : ∀ id, (w.users.get? id).isSome = true → (w'.users.get? id).isSome = true) :
    Inv w' where
  single := by rw [hjobs]; exact h.single
  bound := by rw [hstarts]; exact h.bound
  room := by
    rw [hjobs, hstarts]
    intro job hjob hq date hdate
    have hle := dateOf_mono hclock
    exact h.room job hjob hq date (hle.trans hdate)
  past := husers
  stored := by rw [hjobs, hstarts]; exact h.stored
  once := by rw [hjobs, hstarts]; exact h.once
  queued := by rw [hjobs, hstarts]; exact h.queued
  begun := by rw [hjobs, hstarts]; exact h.begun
  dropped := by rw [hjobs, hstarts, hdropped]; exact h.dropped
  known := by rw [hstarts]; exact fun s hs => hkept _ (h.known s hs)

theorem keeps_of_later {w w' : World} (hjobs : w'.jobs = w.jobs) (husers : w'.users = w.users)
    (hstarts : starts w'.log = starts w.log) (hdropped : droppedIds w'.log = droppedIds w.log)
    (hclock : w.clock ≤ w'.clock) : protocol.Keeps w w' := by
  refine ⟨fun hi => hi.later hjobs hstarts hdropped hclock ?_ ?_, fun hcalm => ?_,
    fun st job _ hk => ?_⟩
  · rw [husers]
    exact fun user huser => (hi.past user huser).later (dateOf_mono hclock)
  · rw [husers]
    exact fun _ => id
  · show AllExact (starts w'.log) w'.users
    rw [hstarts, husers]
    exact hcalm
  · have hexact : AllExact (starts w.log) w.users → AllExact (starts w'.log) w'.users := by
      rw [hstarts, husers]
      exact id
    show Knows job w' st
    cases st with
    | charged => exact hexact hk
    | launched containerId => exact hexact hk
    | owned user =>
      show w'.users.get? job.userId = some user
      rw [husers]
      exact hk
    | started before =>
      obtain ⟨howner, now, ss, hheartbeat, hnow, hbegun⟩ := hk
      refine ⟨by rw [husers]; exact howner, now, ss, hheartbeat, hnow.trans hclock, ?_⟩
      rw [hstarts, husers]
      exact hbegun
    | _ => trivial

section

variable {w : World} {seen new : Job}

theorem starts_create (hfresh : w.jobs.get? new.id = none) :
    starts (w.writeJob new).log = starts w.log := by
  unfold starts World.writeJob
  rw [hfresh]
  rfl

theorem droppedIds_create (hfresh : w.jobs.get? new.id = none) :
    droppedIds (w.writeJob new).log = droppedIds w.log := by
  unfold droppedIds World.writeJob
  rw [hfresh]
  rfl

/-- A write that starts its job. -/
theorem starts_start (hseen : w.jobs.get? new.id = some seen) (hq : seen.status = .queued)
    (hnew : new.status = .initializing) :
    starts (w.writeJob new).log = ⟨dateOf w.clock, new.userId, new.id⟩ :: starts w.log := by
  unfold starts World.writeJob
  rw [hseen]
  exact List.filterMap_cons_some (if_pos ⟨hq, hnew⟩)

/-- Any other write. -/
theorem starts_update (hseen : w.jobs.get? new.id = some seen)
    (hnot : ¬ (seen.status = .queued ∧ new.status = .initializing)) :
    starts (w.writeJob new).log = starts w.log := by
  unfold starts World.writeJob
  rw [hseen]
  exact List.filterMap_cons_none (if_neg hnot)

theorem mem_droppedIds_update (hseen : w.jobs.get? new.id = some seen) {id : String}
    (h : id ∈ droppedIds (w.writeJob new).log) :
    (id = new.id ∧ seen.status = .queued ∧ new.status = .cancelled) ∨ id ∈ droppedIds w.log := by
  obtain ⟨entry, hmem, hentry⟩ := List.mem_filterMap.mp h
  rcases List.mem_cons.mp hmem with rfl | hmem
  · rw [hseen] at hentry
    unfold Entry.droppedId? at hentry
    dsimp only at hentry
    split at hentry
    · rename_i hdropped
      exact .inl ⟨(Option.some.inj hentry).symm, hdropped⟩
    · cases hentry
  · exact .inr (List.mem_filterMap.mpr ⟨entry, hmem, hentry⟩)

theorem stored_put {jobs : JobTable} {id : String} (h : ∃ job, jobs.get? id = some job) :
    ∃ job, (jobs.put new).get? id = some job := by
  rw [Table.get?_put]
  by_cases hid : id = new.id
  · exact ⟨new, if_pos hid⟩
  · rw [if_neg hid]
    exact h

/-- A job that was dropped from the queue is not written again. -/
theorem dropped_put (hi : Inv w) (hseen : w.jobs.get? new.id = some seen)
    (hactive : seen.status.Active) {id : String} (hid : id ∈ droppedIds w.log) :
    id ≠ new.id ∧ ∃ job, (w.jobs.put new).get? id = some job ∧ job.status = .cancelled := by
  obtain ⟨-, job, hjob, hcancelled⟩ := hi.dropped id hid
  have hne : id ≠ new.id := by
    rintro rfl
    rw [hseen] at hjob
    obtain rfl := Option.some.inj hjob
    rw [hcancelled] at hactive
    exact absurd hactive (by decide)
  exact ⟨hne, job, (Table.get?_put_of_ne hne).trans hjob, hcancelled⟩

/-- What is to be shown of a document whose write starts nothing. -/
theorem Inv.put (hi : Inv w) (hstarts : starts (w.writeJob new).log = starts w.log)
    (hsingle : ConcurrentJobs.OnePerOwner (w.jobs.put new))
    (hroom : new.status = .queued → ∀ date, dateOf w.clock ≤ date →
      startsOn (starts w.log) new.userId date < maxDailyJobs)
    (honce : startsOf (starts w.log) new.id = [] ∨
      ∃ date, startsOf (starts w.log) new.id = [⟨date, new.userId, new.id⟩])
    (hqueued : new.status = .queued → startsOf (starts w.log) new.id = [])
    (hbegun : new.status ≠ .queued → new.status ≠ .cancelled → startsOf (starts w.log) new.id ≠ [])
    (hdropped : ∀ id ∈ droppedIds (w.writeJob new).log, startsOf (starts w.log) id = [] ∧
      ∃ job, (w.jobs.put new).get? id = some job ∧ job.status = .cancelled) :
    Inv (w.writeJob new) := by
  constructor
  · exact hsingle
  · rw [hstarts]
    exact hi.bound
  · intro job hjob hq date hdate
    rw [hstarts]
    rcases Table.mem_put.mp hjob with rfl | ⟨hjob, -⟩
    · exact hroom hq date hdate
    · exact hi.room job hjob hq date hdate
  · exact hi.past
  · rw [hstarts]
    exact fun s hs => stored_put (hi.stored s hs)
  · intro job hjob
    rw [hstarts]
    rcases Table.mem_put.mp hjob with rfl | ⟨hjob, -⟩
    · exact honce
    · exact hi.once job hjob
  · intro job hjob hq
    rw [hstarts]
    rcases Table.mem_put.mp hjob with rfl | ⟨hjob, -⟩
    · exact hqueued hq
    · exact hi.queued job hjob hq
  · intro job hjob hq hcancelled
    rw [hstarts]
    rcases Table.mem_put.mp hjob with rfl | ⟨hjob, -⟩
    · exact hbegun hq hcancelled
    · exact hi.begun job hjob hq hcancelled
  · rw [hstarts]
    exact hdropped
  · rw [hstarts]
    exact hi.known

/-- A write that starts nothing. -/
theorem inv_update {op : Op} {st st' : Stage} {now : ℤ} (hi : Inv w)
    (hw : JobWrite op st seen now st' new) (hseen : w.jobs.get? new.id = some seen)
    (hnot : ¬ (seen.status = .queued ∧ new.status = .initializing)) : Inv (w.writeJob new) := by
  have hsame := hw.sameOrigin
  have hold : seen ∈ w.jobs := Table.mem_of_get? hseen
  have hactive := hw.active
  apply hi.put (starts_update hseen hnot)
  · exact ConcurrentJobs.onePerOwner_rewrite hi.single hseen hactive hsame.userId
  · intro hq date hdate
    rw [hsame.userId]
    exact hi.room seen hold (hw.queued_of_queued hq).2 date hdate
  · rw [hsame.id, hsame.userId]
    exact hi.once seen hold
  · intro hq
    rw [hsame.id]
    exact hi.queued seen hold (hw.queued_of_queued hq).2
  · intro hq hcancelled
    rw [hsame.id]
    apply hi.begun seen hold
    · intro hseenq
      -- from the queue a job is started or cancelled
      rcases hw.status_step with heq | hcan
      · exact hq (heq.trans hseenq)
      · rw [hseenq] at hcan
        rcases JobStatus.of_queued hcan with hinit | hcancel
        · exact hnot ⟨hseenq, hinit⟩
        · exact hcancelled hcancel
    · intro hseenc
      rw [hseenc] at hactive
      exact absurd hactive (by decide)
  · intro id hid
    rcases mem_droppedIds_update hseen hid with ⟨rfl, hq, hcancelled⟩ | hid
    · rw [hsame.id]
      refine ⟨hi.queued seen hold hq, new, ?_, hcancelled⟩
      rw [← hsame.id]
      exact Table.get?_put_self w.jobs new
    · exact ⟨(hi.dropped id hid).1, (dropped_put hi hseen hactive hid).2⟩

/-- The start of a job, for which there is room by the invariant. -/
theorem inv_start (hi : Inv w) (hseen : w.jobs.get? new.id = some seen)
    (hsame : new.SameOrigin seen) (hq : seen.status = .queued) (hnew : new.status = .initializing)
    (howner : (w.users.get? seen.userId).isSome = true) : Inv (w.writeJob new) := by
  have hstarts := starts_start hseen hq hnew
  have hold : seen ∈ w.jobs := Table.mem_of_get? hseen
  have hactive : seen.status.Active := by
    rw [hq]
    decide
  constructor
  · exact ConcurrentJobs.onePerOwner_rewrite hi.single hseen hactive hsame.userId
  · intro userId date
    rw [hstarts]
    by_cases hday : new.userId = userId ∧ dateOf w.clock = date
    · obtain ⟨rfl, rfl⟩ := hday
      have hroom := hi.room seen hold hq (dateOf w.clock) le_rfl
      rw [startsOn_cons_self, hsame.userId]
      omega
    · rw [startsOn_cons_of_ne fun huser hdate => hday ⟨huser, hdate⟩]
      exact hi.bound userId date
  · intro job hjob hjobq date hdate
    rw [hstarts]
    rcases Table.mem_put.mp hjob with rfl | ⟨hjob, hid⟩
    · rw [hnew] at hjobq
      cases hjobq
    · -- another job in the queue has another owner
      have hne : new.userId ≠ job.userId := by
        intro howner
        have hjobActive : job.status.Active := by
          rw [hjobq]
          decide
        have heq := hi.single job hjob seen hold hjobActive hactive
          (howner.symm.trans hsame.userId)
        rw [heq, hsame.id] at hid
        exact hid rfl
      rw [startsOn_cons_of_ne fun huser => absurd huser hne]
      exact hi.room job hjob hjobq date hdate
  · exact hi.past
  · intro s hs
    rw [hstarts] at hs
    rcases List.mem_cons.mp hs with rfl | hs
    · exact ⟨new, Table.get?_put_self w.jobs new⟩
    · exact stored_put (hi.stored s hs)
  · intro job hjob
    rw [hstarts]
    rcases Table.mem_put.mp hjob with rfl | ⟨hjob, hid⟩
    · rw [startsOf_cons_self, hsame.id, hi.queued seen hold hq]
      exact .inr ⟨dateOf w.clock, rfl⟩
    · rw [startsOf_cons_of_ne hid.symm]
      exact hi.once job hjob
  · intro job hjob hjobq
    rw [hstarts]
    rcases Table.mem_put.mp hjob with rfl | ⟨hjob, hid⟩
    · rw [hnew] at hjobq
      cases hjobq
    · rw [startsOf_cons_of_ne hid.symm]
      exact hi.queued job hjob hjobq
  · intro job hjob hjobq hcancelled
    rw [hstarts]
    rcases Table.mem_put.mp hjob with rfl | ⟨hjob, hid⟩
    · rw [startsOf_cons_self]
      exact List.cons_ne_nil _ _
    · rw [startsOf_cons_of_ne hid.symm]
      exact hi.begun job hjob hjobq hcancelled
  · intro id hid
    rw [hstarts]
    rcases mem_droppedIds_update hseen hid with ⟨-, -, hcancelled⟩ | hid
    · rw [hnew] at hcancelled
      cases hcancelled
    · obtain ⟨hne, hcancelled⟩ := dropped_put hi hseen hactive hid
      rw [startsOf_cons_of_ne hne.symm]
      exact ⟨(hi.dropped id hid).1, hcancelled⟩
  · rw [hstarts]
    refine List.forall_mem_cons.mpr ⟨?_, hi.known⟩
    rw [hsame.userId]
    exact howner

/-- A new job, whose owner has neither an active job nor used up the day. -/
theorem inv_create {user : User} {today now : ℤ} (hi : Inv w)
    (hnew : NewJob user (w.jobs.listForUser user.id) today now new) (hid : user.id = new.userId)
    (hfresh : w.jobs.get? new.id = none) (hexact : Exact (starts w.log) user)
    (hreset : ResetBy user (dateOf today)) (htoday : today ≤ w.clock) : Inv (w.writeJob new) := by
  obtain ⟨hfree, hroom⟩ := canCreateJob_allowed.mp hnew.allowed
  rw [ConcurrentJobs.countActive_listForUser_eq_zero] at hfree
  have hnone : startsOf (starts w.log) new.id = [] := by
    unfold startsOf
    rw [List.filter_eq_nil_iff]
    intro s hs hjobId
    obtain ⟨job, hjob⟩ := hi.stored s hs
    rw [of_decide_eq_true hjobId, hfresh] at hjob
    cases hjob
  apply hi.put (starts_create hfresh)
  · refine ConcurrentJobs.onePerOwner_put hi.single fun _ job hjob _ howner => ?_
    exact hfree job hjob (howner.trans hid.symm)
  · intro hq date hdate
    rw [← hid]
    have hle := dateOf_mono htoday
    exact hexact.room hreset hroom (hle.trans hdate)
  · exact .inl hnone
  · exact fun _ => hnone
  · exact fun hq => absurd hnew.status_eq hq
  · intro id hid
    rw [droppedIds_create hfresh] at hid
    obtain ⟨hcount, job, hjob, hcancelled⟩ := hi.dropped id hid
    have hne : id ≠ new.id := by
      rintro rfl
      rw [hfresh] at hjob
      cases hjob
    exact ⟨hcount, job, (Table.get?_put_of_ne hne).trans hjob, hcancelled⟩

end

/-- Only the write that starts a job moves it from the queue to `initializing`. -/
theorem not_start_of_ne {op : Op} {st st' : Stage} {seen new : Job} {now : ℤ}
    (hw : JobWrite op st seen now st' new) (hst : ∀ user, st ≠ .owned user) :
    ¬ (seen.status = .queued ∧ new.status = .initializing) := by
  rintro ⟨hq, hnew⟩
  cases hw with
  | start _ => exact hst _ rfl
  | requestCancel _ => exact absurd (hq.symm.trans hnew) (by decide)
  | recordContainer hs => exact absurd (hq.symm.trans hs) (by decide)
  | recordProgress hs => exact absurd (hq.symm.trans hs) (by decide)
  | markAlive hs => exact absurd (hq.symm.trans hs) (by decide)
  | _ => cases hnew

theorem keeps_write {op : Op} {st st' : Stage} {seen new : Job} {now : ℤ} {w : World} (hi : Inv w)
    (hw : JobWrite op st seen now st' new) (hseen : w.jobs.get? new.id = some seen)
    (hk : Knows seen w st) (hclock : w.clock = now)
    (hcalm : st.Settled → AllExact (starts w.log) w.users) :
    Inv (w.writeJob new) ∧ Knows new (w.writeJob new) st' ∧
      (st'.Settled → AllExact (starts (w.writeJob new).log) w.users) := by
  by_cases hst : ∃ user, st = .owned user
  · obtain ⟨user, rfl⟩ := hst
    cases hw with
    | start hq =>
      have howner : w.users.get? seen.userId = some user := hk
      have hknown : (w.users.get? seen.userId).isSome = true := by rw [howner]; rfl
      refine ⟨inv_start hi hseen ⟨rfl, rfl, rfl, rfl, rfl, rfl, rfl⟩ hq rfl hknown,
        ⟨howner, ?_⟩, nofun⟩
      have hstarts := starts_start hseen hq rfl
      rw [hclock] at hstarts
      refine ⟨now, starts w.log, rfl, hclock.ge, ?_, hstarts, hcalm trivial⟩
      rw [← hclock]
      exact hi.past user (Table.mem_of_get? howner)
  · have hnot := not_start_of_ne hw fun user heq => hst ⟨user, heq⟩
    refine ⟨inv_update hi hw hseen hnot, ?_, fun _ => ?_⟩
    · cases hw with
      | start _ => exact absurd ⟨_, rfl⟩ hst
      | _ => trivial
    · rw [starts_update hseen hnot]
      cases hw with
      | recordContainer _ => exact hk
      | _ => exact hcalm trivial

theorem allExact_charge {users : UserTable} {before : User} {userId : String} {date : ℤ}
    {ss : List Start} (howner : users.get? userId = some before) (hreset : ResetBy before date)
    (hexact : AllExact ss users) (jobId : String) :
    AllExact (⟨date, userId, jobId⟩ :: ss) (users.put (recordJobStarted before date)) := by
  obtain rfl : before.id = userId := Table.key_of_get? howner
  intro user huser
  rcases Table.mem_put.mp huser with rfl | ⟨huser, hne⟩
  · exact (hexact before (Table.mem_of_get? howner)).charge hreset jobId
  · exact (hexact user huser).cons_of_ne hne.symm

theorem resetBy_charge {w : World} {before : User} {now : ℤ} (hi : Inv w) (hnow : now ≤ w.clock) :
    ∀ user ∈ w.users.put (recordJobStarted before (dateOf now)), ResetBy user (dateOf w.clock) := by
  intro user huser
  rcases Table.mem_put.mp huser with rfl | ⟨huser, -⟩
  · intro day hday
    obtain rfl := Option.some.inj hday
    exact dateOf_mono hnow
  · exact hi.past user huser

theorem inv_initial {w : World} (hjobs : w.jobs = Table.empty) (hlog : w.log = [])
    (husers : ∀ user ∈ w.users, ResetBy user (dateOf w.clock)) : Inv w := by
  have hnone : ∀ job, job ∉ w.jobs := by
    rw [hjobs]
    exact Table.not_mem_empty
  constructor
  · exact fun job hjob => absurd hjob (hnone job)
  · rw [hlog]
    exact fun _ _ => Nat.zero_le _
  · exact fun job hjob => absurd hjob (hnone job)
  · exact husers
  · rw [hlog]
    exact fun s hs => absurd hs List.not_mem_nil
  · exact fun job hjob => absurd hjob (hnone job)
  · exact fun job hjob => absurd hjob (hnone job)
  · exact fun job hjob => absurd hjob (hnone job)
  · rw [hlog]
    exact fun id hid => absurd hid List.not_mem_nil
  · rw [hlog]
    exact fun s hs => absurd hs List.not_mem_nil

/-- Nothing was started for a user who is not stored. -/
theorem startsOn_unknown {w : World} {userId : String} (hi : Inv w)
    (hfresh : w.users.get? userId = none) (date : ℤ) : startsOn (starts w.log) userId date = 0 := by
  refine List.countP_eq_zero.mpr fun s hs => ?_
  have hknown := hi.known s hs
  simp only [decide_eq_true_eq, not_and]
  intro heq
  rw [heq, hfresh] at hknown
  cases hknown

theorem exact_unused {ss : List Start} {user : User} (hreset : user.quotaResetDate = none)
    (hss : ∀ date, startsOn ss user.id date = 0) : Exact ss user := by
  intro date _
  rw [hss]
  unfold effectiveDailyUsed
  rw [hreset, if_pos nofun]

/-- Nor does anything count that the history says of objects and datasets. -/
theorem keeps_of_foreign {w w' : World} {entries : List Entry} (hjobs : w'.jobs = w.jobs)
    (husers : w'.users = w.users) (hclock : w'.clock = w.clock) (hlog : w'.log = entries ++ w.log)
    (hentries : ∀ entry ∈ entries, entry.Foreign) : protocol.Keeps w w' := by
  apply keeps_of_later hjobs husers
  · rw [hlog]
    exact starts_append hentries
  · rw [hlog]
    exact droppedIds_append hentries
  · exact hclock.ge

theorem sound {D : Deployment} (hsteady : D.steady = true) : protocol.Sound D where
  alike w w' h := by
    obtain ⟨entries, hlog, hentries⟩ := h.log
    exact keeps_of_foreign h.jobs h.users h.clock hlog hentries
  tick w t ht := keeps_of_later rfl rfl rfl rfl (ht hsteady)
  read _ _ := trivial
  next _ _ _ _ _ _ := trivial
  owned _ _ _ _ _ howner := howner
  dated user w hi huser := hi.past user (Table.mem_of_get? huser)
  sawProgress _ _ _ _ _ _ _ _ _ := ⟨trivial, fun _ => trivial⟩
  polled _ _ _ _ _ _ _ := trivial
  wrote _ _ _ _ _ _ _ hi hw hseen hk hclock hcalm _ := keeps_write hi hw hseen hk hclock hcalm
  created _ user today now job w hi hnew hid hfresh huser hreset htoday hclock hcalm _ := by
    have hexact := hcalm user (Table.mem_of_get? huser)
    have hle : today ≤ w.clock := (htoday hsteady).trans hclock.ge
    refine ⟨inv_create hi hnew hid hfresh hexact hreset hle, ?_⟩
    show AllExact (starts (w.writeJob job).log) w.users
    rw [starts_create hfresh]
    exact hcalm
  charged job before now w hi _ hk hheartbeat := by
    obtain ⟨howner, now', ss, hheartbeat', hnow, hreset, hstarts, hexact⟩ := hk
    obtain rfl : now = now' := Option.some.inj (hheartbeat.symm.trans hheartbeat')
    have hcharged := allExact_charge howner hreset hexact job.id
    rw [← hstarts] at hcharged
    exact ⟨hi.later rfl rfl rfl le_rfl (resetBy_charge hi hnow) fun _ => Table.isSome_get?_put _,
      hcharged, hcharged⟩
  password user passwordHash w huser := by
    have hmem := Table.mem_of_get? huser
    refine ⟨fun hi => hi.later rfl rfl rfl le_rfl (fun other hother => ?_) fun _ =>
      Table.isSome_get?_put _, fun hcalm other hother => ?_⟩
    · rcases Table.mem_put.mp hother with rfl | ⟨hother, -⟩
      · exact hi.past user hmem
      · exact hi.past other hother
    · rcases Table.mem_put.mp hother with rfl | ⟨hother, -⟩
      · exact hcalm user hmem
      · exact hcalm other hother
  signedUp op user w hi hnew hfresh := by
    have hreset := hnew.quotaResetDate_eq
    have hunknown := startsOn_unknown hi hfresh
    refine ⟨hi.later rfl rfl rfl le_rfl (fun other hother => ?_) fun _ =>
      Table.isSome_get?_put _, fun hcalm other hother => ?_⟩
    · rcases Table.mem_put.mp hother with rfl | ⟨hother, -⟩
      · intro day hday
        rw [hreset] at hday
        cases hday
      · exact hi.past other hother
    · rcases Table.mem_put.mp hother with rfl | ⟨hother, -⟩
      · exact exact_unused hreset hunknown
      · exact hcalm other hother
  refused job w hi _ _ := by
    have hkeeps : protocol.Keeps w (w.record (.ran (some job.id))) :=
      keeps_of_later rfl rfl rfl rfl le_rfl
    exact ⟨hkeeps.1 hi, trivial, hkeeps.2.1⟩
  launched job spec containerId w hi _ hk _ _ _ := by
    have hkeeps : protocol.Keeps w
        ((w.runContainer spec containerId).record (.ran (some job.id))) :=
      keeps_of_later rfl rfl rfl rfl le_rfl
    exact ⟨hkeeps.1 hi, hk⟩
  killed containerId containers w _ := by
    have hkeeps : protocol.Keeps w { w with containers := containers } :=
      keeps_of_later rfl rfl rfl rfl le_rfl
    exact ⟨hkeeps.1, hkeeps.2.1, fun _ _ => trivial⟩
  occur v w w' he := by
    obtain ⟨hjobs, husers, hclock, entries, hlog, hentries⟩ := World.occur_frame he
    have hforeign : ∀ entry ∈ entries, entry.Foreign := by
      intro entry hmem
      obtain ⟨objectPath, data, rfl⟩ := hentries entry hmem
      trivial
    have hkeeps := keeps_of_foreign hjobs husers hclock hlog hforeign
    exact ⟨hkeeps.1, hkeeps.2.1⟩

end DailyQuota

/-- In every run of whole operations on one clock that never goes back, from fresh accounts: no
user starts more jobs on a day than the limit allows, the counter of a day is the number of
jobs started on it, a job that is cancelled in the queue does not count, and one that fails
later does. -/
theorem daily_quota_exact (D : Deployment) (hsteady : D.steady = true) {w : World}
    {ls : List SysLabel} {rs : List SysRecord} {c : SysConf} (hjobs : w.jobs = Table.empty)
    (hlog : w.log = []) (husers : ∀ user ∈ w.users, user.quotaResetDate = none)
    (hl : ∀ l ∈ ls, l.Uninterrupted) (hr : D.system.run (.initial w) ls = some (rs, c)) :
    (∀ userId date, startsOn (starts c.state.log) userId date ≤ maxDailyJobs) ∧
    (∀ user ∈ c.state.users, ∀ date, user.quotaResetDate = some date →
      user.dailyQuotaUsed = startsOn (starts c.state.log) user.id date) ∧
    (∀ job ∈ c.state.jobs, startsOf (starts c.state.log) job.id = [] ∨
      ∃ date, startsOf (starts c.state.log) job.id = [⟨date, job.userId, job.id⟩]) ∧
    (∀ time old new, Entry.wrote time (some old) new ∈ c.state.log → old.status = .queued →
      new.status = .cancelled → startsOf (starts c.state.log) new.id = []) ∧
    ∀ job ∈ c.state.jobs, job.status = .failed → startsOf (starts c.state.log) job.id ≠ [] := by
  have hreset : ∀ user ∈ w.users, ∀ date, ResetBy user date := by
    intro user huser date day hday
    rw [husers user huser] at hday
    cases hday
  have hi : Inv w := inv_initial hjobs hlog fun user huser => hreset user huser _
  have hcalm : AllExact (starts w.log) w.users := by
    intro user huser date _
    rw [hlog]
    unfold effectiveDailyUsed
    rw [husers user huser, if_pos nofun]
    rfl
  obtain ⟨-, hinv, hexact⟩ := (DailyQuota.sound hsteady).run hi hcalm hl hr fun _ _ _ => trivial
  refine ⟨hinv.bound, fun user huser date hdate => ?_, hinv.once, ?_, fun job hjob hfailed => ?_⟩
  · have hday : ResetBy user date := by
      intro day hday
      obtain rfl := Option.some.inj (hdate.symm.trans hday)
      exact le_rfl
    have heq := hexact user huser date hday
    unfold effectiveDailyUsed at heq
    rwa [if_neg (by simp [hdate])] at heq
  · intro time old new hmem hq hcancelled
    refine (hinv.dropped new.id (List.mem_filterMap.mpr ⟨_, hmem, ?_⟩)).1
    exact if_pos ⟨hq, hcancelled⟩
  · exact hinv.begun job hjob (by rw [hfailed]; decide) (by rw [hfailed]; decide)

namespace DailyQuota

/-- A job is created before midnight, and its container is started after it. -/
def overMidnight : List SysLabel :=
  [.whole (.createJob "user" .act .hfHub "org/dataset" 100)
      (List.replicate 6 { time := seconds 86399, text := "j" }),
    .whole .pollerTick (List.replicate 12 { time := seconds 86401, text := "c" })]

end DailyQuota

theorem daily_quota_exact_midnight : ∃ rs c,
    Deployment.oneClock.system.run (.initial .sample) overMidnight = some (rs, c) ∧
      startsOn (starts c.state.log) "user" 1 = 1 ∧ ∀ user ∈ c.state.users, ∀ date,
        user.quotaResetDate = some date →
          user.dailyQuotaUsed = startsOn (starts c.state.log) user.id date := by
  have hrun : (Deployment.oneClock.system.run (.initial .sample) overMidnight).any (fun out =>
      startsOn (starts out.2.state.log) "user" 1 = 1) = true := by rfl
  obtain ⟨⟨rs, c⟩, hr, hone⟩ := (Option.any_eq_true _ _).mp hrun
  have hl : ∀ l ∈ overMidnight, l.Uninterrupted := by simp [overMidnight, Label.Uninterrupted]
  have husers : ∀ user ∈ World.sample.users, user.quotaResetDate = none := by
    simp [World.sample, Table.mem_put]
  have hquota := daily_quota_exact .oneClock rfl rfl rfl husers hl hr
  exact ⟨rs, c, hr, of_decide_eq_true hone, hquota.2.1⟩

end TrainVla
