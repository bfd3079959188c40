import TrainVla.Common.Models

/-! The job state machine, and the order in which it moves. -/
namespace TrainVla

def allowedTransitions : JobStatus → List JobStatus
  | .queued => [.initializing, .cancelled]
  | .initializing => [.training, .failed, .cancelled]
  | .training => [.completed, .failed, .cancelled]
  | .completed => []
  | .failed => []
  | .cancelled => []

def canTransition (source target : JobStatus) : Bool := target ∈ allowedTransitions source

def transition (job : Job) (target : JobStatus) (now : ℤ) : Except Exc Job :=
  if canTransition job.status target then .ok { job with status := target, updatedAt := now }
  else .error (.invalidTransition job.status target)

def canRequestCancel (status : JobStatus) : Bool := status ∈ activeStatuses

def requestCancel (job : Job) (now : ℤ) : Except Exc Job :=
  if canRequestCancel job.status then .ok { job with cancelRequested := true, updatedAt := now }
  else .error (.cancelNotAllowed job.status)

theorem transition_eq_ok {job new : Job} {target : JobStatus} {now : ℤ}
    (h : transition job target now = .ok new) :
    canTransition job.status target = true ∧
      new = { job with status := target, updatedAt := now } := by
  unfold transition at h
  split at h
  · rename_i hc
    exact ⟨hc, (Except.ok.inj h).symm⟩
  · cases h

theorem transition_of_can {job : Job} {target : JobStatus} {now : ℤ}
    (h : canTransition job.status target = true) :
    transition job target now = .ok { job with status := target, updatedAt := now } := by
  simp [transition, h]

theorem requestCancel_eq_ok {job new : Job} {now : ℤ}
    (h : requestCancel job now = .ok new) :
    job.status.Active ∧ new = { job with cancelRequested := true, updatedAt := now } := by
  unfold requestCancel at h
  split at h
  · rename_i hc
    exact ⟨of_decide_eq_true hc, (Except.ok.inj h).symm⟩
  · cases h

namespace JobStatus

/-- How far along its life a job is. -/
def rank : JobStatus → ℕ
  | queued => 0
  | initializing => 1
  | training => 2
  | _ => 3

/-- `t` can be reached from `s`: no status is ever left and entered again. -/
def Reaches (s t : JobStatus) : Prop := s = t ∨ s.rank < t.rank

theorem Reaches.rfl {s : JobStatus} : s.Reaches s := .inl (Eq.refl s)

theorem Reaches.trans {s t u : JobStatus} (h₁ : s.Reaches t) (h₂ : t.Reaches u) :
    s.Reaches u := by
  rcases h₁ with rfl | h₁
  · exact h₂
  · rcases h₂ with rfl | h₂
    · exact .inr h₁
    · exact .inr (h₁.trans h₂)

theorem reaches_of_canTransition {s t : JobStatus} (h : canTransition s t = true) :
    s.Reaches t := by
  revert h
  unfold Reaches
  cases s <;> cases t <;> decide

/-- The transitions strictly increase the rank, so none leads back. -/
theorem not_canTransition_of_rank_lt {s t : JobStatus} (h : s.rank < t.rank) :
    canTransition t s = false := by
  revert h
  cases s <;> cases t <;> decide

theorem cancelled_of_active {s : JobStatus} (h : s.Active) : canTransition s .cancelled = true := by
  revert h
  cases s <;> decide

theorem of_queued {t : JobStatus} (h : canTransition .queued t = true) :
    t = .initializing ∨ t = .cancelled := by
  revert h
  cases t <;> decide

/-- A job that was running when it was seen, and is active still, can fail. -/
theorem failed_of_reached {s t : JobStatus} (hs : s = .initializing ∨ s = .training)
    (h : s.Reaches t) (ht : t.Active) : canTransition t .failed = true := by
  revert hs h ht
  unfold Reaches
  cases s <;> cases t <;> decide

end JobStatus

end TrainVla
