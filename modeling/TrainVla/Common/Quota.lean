import TrainVla.Common.Models

/-! Per-user quota rules. -/
namespace TrainVla

def maxConcurrentJobs : ℕ := 1

def maxDailyJobs : ℕ := 10

def countActive (jobs : List Job) : ℕ := (jobs.filter fun job => job.status ∈ activeStatuses).length

def hasFreeConcurrentSlot (jobs : List Job) (maxConcurrent : ℕ := maxConcurrentJobs) : Bool :=
  countActive jobs < maxConcurrent

/-- The daily counter, which falls back to zero once `today` moves past its date. -/
def effectiveDailyUsed (user : User) (today : ℤ) : ℕ :=
  if user.quotaResetDate ≠ some today then 0 else user.dailyQuotaUsed

def hasDailyQuotaRemaining (user : User) (today : ℤ) (maxDaily : ℕ := maxDailyJobs) : Bool :=
  effectiveDailyUsed user today < maxDaily

structure QuotaCheckResult where
  allowed : Bool
  reason : Option String := none

def canCreateJob (user : User) (activeJobs : List Job) (today : ℤ) : QuotaCheckResult :=
  if !hasFreeConcurrentSlot activeJobs then
    { allowed := false, reason := some "You already have a job queued or in progress." }
  else if !hasDailyQuotaRemaining user today then
    { allowed := false, reason := some "Daily job quota exceeded." }
  else { allowed := true }

def recordJobStarted (user : User) (today : ℤ) : User :=
  let used := effectiveDailyUsed user today
  { user with dailyQuotaUsed := used + 1, quotaResetDate := some today }

theorem canCreateJob_allowed {user : User} {jobs : List Job} {today : ℤ} :
    (canCreateJob user jobs today).allowed = true ↔
      countActive jobs = 0 ∧ effectiveDailyUsed user today < maxDailyJobs := by
  unfold canCreateJob hasFreeConcurrentSlot hasDailyQuotaRemaining maxConcurrentJobs
  split
  · rename_i h
    simp only [Bool.false_eq_true, false_iff, not_and]
    intro h0
    simp [h0] at h
  · split
    · rename_i h _
      simp_all
    · simp_all

theorem countActive_eq_zero {jobs : List Job} :
    countActive jobs = 0 ↔ ∀ job ∈ jobs, ¬ job.status.Active := by
  unfold countActive
  rw [List.length_eq_zero_iff, List.filter_eq_nil_iff]
  simp [JobStatus.Active]

@[simp] theorem recordJobStarted_id (user : User) (today : ℤ) :
    (recordJobStarted user today).id = user.id := rfl

@[simp] theorem recordJobStarted_quotaResetDate (user : User) (today : ℤ) :
    (recordJobStarted user today).quotaResetDate = some today := rfl

@[simp] theorem recordJobStarted_dailyQuotaUsed (user : User) (today : ℤ) :
    (recordJobStarted user today).dailyQuotaUsed = effectiveDailyUsed user today + 1 := rfl

end TrainVla
