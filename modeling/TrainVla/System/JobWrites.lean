import TrainVla.System.Protocol

/-! What all rewrites of a job document have in common. -/
namespace TrainVla

/-- The fields that are settled when a job is created. -/
structure Job.SameOrigin (a b : Job) : Prop where
  id : a.id = b.id
  userId : a.userId = b.userId
  policy : a.policy = b.policy
  sourceType : a.sourceType = b.sourceType
  sourceRef : a.sourceRef = b.sourceRef
  trainingSteps : a.trainingSteps = b.trainingSteps
  createdAt : a.createdAt = b.createdAt

namespace Job.SameOrigin

theorem rfl {a : Job} : a.SameOrigin a := ⟨.refl _, .refl _, .refl _, .refl _, .refl _, .refl _, .refl _⟩

theorem symm {a b : Job} (h : a.SameOrigin b) : b.SameOrigin a :=
  ⟨h.1.symm, h.2.symm, h.3.symm, h.4.symm, h.5.symm, h.6.symm, h.7.symm⟩

theorem trans {a b c : Job} (h₁ : a.SameOrigin b) (h₂ : b.SameOrigin c) : a.SameOrigin c :=
  ⟨h₁.1.trans h₂.1, h₁.2.trans h₂.2, h₁.3.trans h₂.3, h₁.4.trans h₂.4, h₁.5.trans h₂.5,
    h₁.6.trans h₂.6, h₁.7.trans h₂.7⟩

end Job.SameOrigin

theorem NewJob.status_eq {user : User} {jobs : List Job} {today now : ℤ} {job : Job}
    (h : NewJob user jobs today now job) : job.status = .queued := by
  rw [h.eq]

theorem NewJob.active {user : User} {jobs : List Job} {today now : ℤ} {job : Job}
    (h : NewJob user jobs today now job) : job.status.Active := by
  rw [h.status_eq]
  decide

theorem NewUser.quotaResetDate_eq {op : Op} {user : User} (h : NewUser op user) :
    user.quotaResetDate = none := by
  cases h <;> rfl

namespace JobWrite

variable {op : Op} {st st' : Stage} {seen new : Job} {now : ℤ}

theorem sameOrigin (h : JobWrite op st seen now st' new) : new.SameOrigin seen := by
  cases h <;> exact ⟨rfl, rfl, rfl, rfl, rfl, rfl, rfl⟩

theorem id_eq (h : JobWrite op st seen now st' new) : new.id = seen.id := h.sameOrigin.id

/-- No write leaves the state machine, seen from the document it was computed from. -/
theorem status_step (h : JobWrite op st seen now st' new) :
    new.status = seen.status ∨ canTransition seen.status new.status = true := by
  cases h with
  | timeOut htimeout =>
    rcases status_of_isTimedOut htimeout with hs | hs <;> rw [hs] <;> exact .inr rfl
  | cancelUnstarted _ hactive _ => exact .inr (JobStatus.cancelled_of_active hactive)
  | cancelKilled _ hactive => exact .inr (JobStatus.cancelled_of_active hactive)
  | start hs => rw [hs]; exact .inr rfl
  | failUnfetched hs => rw [hs]; exact .inr rfl
  | failRefused hs => rw [hs]; exact .inr rfl
  | enterTraining hs _ => rw [hs]; exact .inr rfl
  | complete hs => rw [hs]; exact .inr rfl
  | fail hs => rw [hs]; exact .inr rfl
  | _ => exact .inl rfl

/-- The backend changes a status only where it lets a job time out. -/
theorem status_of_request (h : JobWrite op st seen now st' new) (hop : op.threaded = false) :
    op ≠ .timeoutSweep ∧ new.status = seen.status ∧ seen.status.Active ∨
      op = .timeoutSweep ∧ new.status = .failed ∧
        (seen.status = .initializing ∨ seen.status = .training) := by
  cases h with
  | requestCancel hactive => exact .inl ⟨by simp, rfl, hactive⟩
  | timeOut htimeout => exact .inr ⟨rfl, rfl, status_of_isTimedOut htimeout⟩
  | _ => simp [Op.threaded] at hop

/-- Only a request sets the flag, and nothing clears it in the document it was read in. -/
theorem cancelRequested_eq (h : JobWrite op st seen now st' new) :
    new.cancelRequested = seen.cancelRequested ∨
      new.cancelRequested = true ∧ ∃ userId jobId, op = .requestCancel userId jobId := by
  cases h with
  | requestCancel _ => exact .inr ⟨rfl, _, _, rfl⟩
  | _ => exact .inl rfl

/-- Documents that have come to an end are not written any more. -/
theorem active (h : JobWrite op st seen now st' new) : seen.status.Active := by
  cases h with
  | requestCancel hactive => exact hactive
  | cancelUnstarted _ hactive _ => exact hactive
  | cancelKilled _ hactive => exact hactive
  | timeOut htimeout => rcases status_of_isTimedOut htimeout with hs | hs <;> rw [hs] <;> decide
  | start hs => rw [hs]; decide
  | failUnfetched hs => rw [hs]; decide
  | failRefused hs => rw [hs]; decide
  | recordContainer hs => rw [hs]; decide
  | enterTraining hs _ => rw [hs]; decide
  | recordProgress hs => rw [hs]; decide
  | markAlive hs => rw [hs]; decide
  | complete hs => rw [hs]; decide
  | fail hs => rw [hs]; decide

/-- Nothing puts a job into the queue. Only a request leaves one in it. -/
theorem queued_of_queued (h : JobWrite op st seen now st' new) (hq : new.status = .queued) :
    op.threaded = false ∧ seen.status = .queued := by
  have hstep := h.status_step
  rw [hq] at hstep
  have hseen : seen.status = .queued := by
    rcases hstep with heq | hcan
    · exact heq.symm
    · revert hcan
      cases seen.status <;> decide
  refine ⟨?_, hseen⟩
  cases h with
  | requestCancel _ => rfl
  | timeOut _ => rfl
  | start _ => cases hq
  | cancelUnstarted _ _ _ => cases hq
  | cancelKilled _ _ => cases hq
  | failUnfetched _ => cases hq
  | failRefused _ => cases hq
  | recordContainer hs => exact absurd (hs.symm.trans hseen) (by decide)
  | enterTraining _ _ => cases hq
  | recordProgress hs => exact absurd (hs.symm.trans hseen) (by decide)
  | markAlive hs => exact absurd (hs.symm.trans hseen) (by decide)
  | complete _ => cases hq
  | fail _ => cases hq

end JobWrite

end TrainVla
