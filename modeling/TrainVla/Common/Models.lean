import TrainVla.Common.Json

/-! The documents shared by the backend and the worker, and the exceptions that the
services tell apart. -/
namespace TrainVla

/-! Instants are UTC, in microseconds from the epoch; dates count the days from it. -/

def seconds (n : ℤ) : ℤ := n * 1000000

def minutes (n : ℤ) : ℤ := seconds (n * 60)

/-- The calendar day of an instant. -/
def dateOf (t : ℤ) : ℤ := t / seconds 86400

theorem dateOf_mono {s t : ℤ} (h : s ≤ t) : dateOf s ≤ dateOf t :=
  Int.ediv_le_ediv (by decide) h

inductive JobStatus
  | queued
  | initializing
  | training
  | completed
  | failed
  | cancelled
  deriving DecidableEq

namespace JobStatus

def value : JobStatus → String
  | queued => "queued"
  | initializing => "initializing"
  | training => "training"
  | completed => "completed"
  | failed => "failed"
  | cancelled => "cancelled"

end JobStatus

/-- Statuses in which a job takes the slot of its owner. -/
def activeStatuses : List JobStatus := [.queued, .initializing, .training]

def terminalStatuses : List JobStatus := [.completed, .failed, .cancelled]

namespace JobStatus

def Active (s : JobStatus) : Prop := s ∈ activeStatuses

def Terminal (s : JobStatus) : Prop := s ∈ terminalStatuses

instance (s : JobStatus) : Decidable s.Active := inferInstanceAs (Decidable (s ∈ _))

instance (s : JobStatus) : Decidable s.Terminal := inferInstanceAs (Decidable (s ∈ _))

theorem terminal_iff_not_active (s : JobStatus) : s.Terminal ↔ ¬ s.Active := by
  cases s <;> decide

theorem active_or_terminal (s : JobStatus) : s.Active ∨ s.Terminal := by
  cases s <;> decide

end JobStatus

inductive PolicyType
  | act
  | smolvla
  deriving DecidableEq

def PolicyType.value : PolicyType → String
  | act => "act"
  | smolvla => "smolvla"

inductive SourceType
  | hfHub
  | zipUpload
  deriving DecidableEq

def SourceType.value : SourceType → String
  | hfHub => "hf_hub"
  | zipUpload => "zip_upload"

inductive AuthProvider
  | email
  | huggingface
  deriving DecidableEq

structure User where
  id : String
  authProvider : AuthProvider
  email : Option String := none
  passwordHash : Option String := none
  hfUserId : Option String := none
  dailyQuotaUsed : ℕ := 0
  quotaResetDate : Option ℤ := none
  createdAt : ℤ

/-- Nothing checks the types of what a container reports, so the fields are raw JSON. -/
structure Progress where
  step : Json
  totalSteps : Json
  loss : Json
  updatedAt : ℤ

structure Job where
  id : String
  userId : String
  policy : PolicyType
  sourceType : SourceType
  sourceRef : String
  trainingSteps : ℤ
  status : JobStatus := .queued
  containerId : Option String := none
  heartbeatAt : Option ℤ := none
  progress : Option Progress := none
  cancelRequested : Bool := false
  checkpointGcsPath : Option String := none
  errorMessage : Option String := none
  createdAt : ℤ
  updatedAt : ℤ

/-- The exceptions of the services and of what they call. `other` stands for any
exception type that no handler names. -/
inductive Exc
  | invalidTransition (source target : JobStatus)
  | cancelNotAllowed (status : JobStatus)
  | userNotFound (userId : String)
  | jobNotFound (jobId : String)
  | notJobOwner (jobId : String)
  | quotaExceeded (reason : Option String)
  | invalidTrainingSteps (reason : Option String)
  | downloadNotAvailable (jobId : String)
  | uploadValidation (message : String)
  | uploadNotFound (objectPath : String)
  | hfDatasetNotFound (message : String)
  | wrongOldPassword (message : String)
  | captchaFailed (message : String)
  | emailAlreadyRegistered (message : String)
  | invalidCredentials (message : String)
  | userMissing (userId : String)
  | datasetFetch (message : String)
  | invalidInfoJson (message : String)
  | fileNotFound (message : String)
  | badZipFile (message : String)
  | key (message : String)
  | jsonDecode (message : String)
  | unicodeDecode (message : String)
  | other (name message : String)
  deriving DecidableEq

/-- The text of an exception, as an f-string shows it. -/
def Exc.str : Exc → String
  | invalidTransition source target =>
    s!"Cannot transition job from '{source.value}' to '{target.value}'"
  | cancelNotAllowed status => s!"Cannot cancel a job in status '{status.value}'"
  | userNotFound m | jobNotFound m | notJobOwner m | downloadNotAvailable m => m
  | quotaExceeded reason | invalidTrainingSteps reason => reason.getD "None"
  | uploadValidation m | uploadNotFound m | hfDatasetNotFound m | wrongOldPassword m => m
  | captchaFailed m | emailAlreadyRegistered m | invalidCredentials m => m
  | userMissing m | datasetFetch m | invalidInfoJson m | fileNotFound m | badZipFile m => m
  | key m | jsonDecode m | unicodeDecode m | other _ m => m

end TrainVla
