import TrainVla.Common.Models

/-! Heartbeat and timeout rules. -/
namespace TrainVla

def initializingTimeout : ℤ := minutes 5

def trainingTimeout : ℤ := minutes 2

def timeoutForStatus : JobStatus → Option ℤ
  | .initializing => some initializingTimeout
  | .training => some trainingTimeout
  | _ => none

def isTimedOut (status : JobStatus) (heartbeatAt : Option ℤ) (now : ℤ) : Bool :=
  match timeoutForStatus status, heartbeatAt with
  | some threshold, some heartbeat => now - heartbeat > threshold
  | _, _ => false

/-- Does the content of a progress file differ from the progress seen last? -/
def progressChanged (previous : Option Progress) (current : Progress) : Bool :=
  match previous with
  | none => true
  | some p => !(p.step.pyEq current.step && p.loss.pyEq current.loss)

theorem isTimedOut_initializing {heartbeat now : ℤ} :
    isTimedOut .initializing (some heartbeat) now = true ↔
      heartbeat + initializingTimeout < now := by
  simp only [isTimedOut, timeoutForStatus, decide_eq_true_eq]
  omega

/-- Only the two statuses that have a timeout can run into it. -/
theorem status_of_isTimedOut {status : JobStatus} {heartbeatAt : Option ℤ}
    {now : ℤ} (h : isTimedOut status heartbeatAt now = true) :
    status = .initializing ∨ status = .training := by
  cases status with
  | initializing => exact .inl rfl
  | training => exact .inr rfl
  | _ => simp [isTimedOut, timeoutForStatus] at h

end TrainVla
