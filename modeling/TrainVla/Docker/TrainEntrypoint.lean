import TrainVla.Common.Models

/-! The training loop of the two entrypoints, as far as it reports its progress: which steps it
writes to the progress file, by a clock that is read once before the first step and once after
each. -/
namespace TrainVla

/-- A write of the progress file, with the reading of the clock that it was decided by. -/
structure ProgressWrite where
  step : ℕ
  totalSteps : ℕ
  loss : PyFloat
  now : ℚ

namespace TrainEntrypoint

def progressEvery (totalSteps : ℕ) : ℕ := max 1 (totalSteps / 200)

/-- A write that is due whatever the time. -/
def Regular (totalSteps step : ℕ) : Prop :=
  step % progressEvery totalSteps = 0 ∨ step = totalSteps

instance (totalSteps step : ℕ) : Decidable (Regular totalSteps step) :=
  inferInstanceAs (Decidable (_ ∨ _))

/-- The loop over the steps that are left. -/
def trainSteps (maxSecondsBetweenProgressWrites : ℚ) (totalSteps : ℕ) (monotonic : ℕ → ℚ)
    (loss : ℕ → PyFloat) (lastWriteAt : ℚ) : List ℕ → List ProgressWrite
  | [] => []
  | step :: steps =>
    let now := monotonic step
    if Regular totalSteps step ∨ now - lastWriteAt ≥ maxSecondsBetweenProgressWrites then
      { step, totalSteps, loss := loss step, now } ::
        trainSteps maxSecondsBetweenProgressWrites totalSteps monotonic loss now steps
    else trainSteps maxSecondsBetweenProgressWrites totalSteps monotonic loss lastWriteAt steps

/-- `monotonic 0` is read when the loop begins, `monotonic step` after that step. -/
def runTrainingLoop (maxSecondsBetweenProgressWrites : ℚ) (totalSteps : ℕ) (monotonic : ℕ → ℚ)
    (loss : ℕ → PyFloat) : List ProgressWrite :=
  trainSteps maxSecondsBetweenProgressWrites totalSteps monotonic loss (monotonic 0)
    (List.range' 1 totalSteps)

end TrainEntrypoint

namespace ActEntrypoint

def maxSecondsBetweenProgressWrites : ℚ := 60

def runTrainingLoop : ℕ → (ℕ → ℚ) → (ℕ → PyFloat) → List ProgressWrite :=
  TrainEntrypoint.runTrainingLoop maxSecondsBetweenProgressWrites

end ActEntrypoint

namespace SmolvlaEntrypoint

def maxSecondsBetweenProgressWrites : ℚ := 60

def runTrainingLoop : ℕ → (ℕ → ℚ) → (ℕ → PyFloat) → List ProgressWrite :=
  TrainEntrypoint.runTrainingLoop maxSecondsBetweenProgressWrites

end SmolvlaEntrypoint

end TrainVla
