import TrainVla.Calendar.IsoFormat
import TrainVla.Common.Models

/-! Jobs and users as stored documents: the hand-written encoders and decoders. -/
namespace TrainVla

/-- What a field of a document holds; the plain null is `None`. -/
inductive FieldValue
  | plain (value : Json)
  | time (t : ℤ)
  | map (fields : List (String × FieldValue))

abbrev Document := List (String × FieldValue)

/-- What `if value` asks. -/
def Json.truthy : Json → Bool
  | .null => false
  | .bool b => b
  | .int n => n ≠ 0
  | .float x => x ≠ .finite 0
  | .str s => s ≠ ""
  | .arr xs => !xs.isEmpty
  | .obj items => !items.isEmpty

namespace FieldValue

abbrev str (s : String) : FieldValue := .plain (.str s)

abbrev int (n : ℤ) : FieldValue := .plain (.int n)

abbrev bool (b : Bool) : FieldValue := .plain (.bool b)

def truthy : FieldValue → Bool
  | .plain value => value.truthy
  | .time _ => true
  | .map fields => !fields.isEmpty

/-! The readers of the fields. A record of the model cannot hold a value of the wrong type,
so reading one fails; nothing writes one. -/

def asStr? : FieldValue → Option String
  | .plain (.str s) => some s
  | _ => none

def asInt? : FieldValue → Option ℤ
  | .plain (.int n) => some n
  | _ => none

def asNat? : FieldValue → Option ℕ
  | .plain (.int (.ofNat n)) => some n
  | _ => none

def asBool? : FieldValue → Option Bool
  | .plain (.bool b) => some b
  | _ => none

def asTime? : FieldValue → Option ℤ
  | .time t => some t
  | _ => none

def asJson? : FieldValue → Option Json
  | .plain value => some value
  | _ => none

def asDoc? : FieldValue → Option Document
  | .map fields => some fields
  | _ => none

def typed {α : Type} (view : FieldValue → Option α) (value : FieldValue) : Except Exc α :=
  match view value with
  | some a => .ok a
  | none => .error (.other "TypeError" "a value of another type")

def optional {α : Type} (view : FieldValue → Option α) : FieldValue → Except Exc (Option α)
  | .plain .null => .ok none
  | value => (typed view value).map some

def orNone {α : Type} (encode : α → FieldValue) : Option α → FieldValue
  | some a => encode a
  | none => .plain .null

/-- The member of an enumeration with this value. -/
def member {α : Type} (cls : String) (members : List α) (value : α → String) :
    FieldValue → Except Exc α
  | .plain (.str s) =>
    match members.find? fun m => value m = s with
    | some m => .ok m
    | none => .error (.other "ValueError" s!"'{s}' is not a valid {cls}")
  | _ => .error (.other "ValueError" s!"no string is a valid {cls}")

end FieldValue

namespace Document

/-- `doc[field]` -/
def item (doc : Document) (field : String) : Except Exc FieldValue :=
  match List.lookup field doc with
  | some value => .ok value
  | none => .error (.key s!"'{field}'")

/-- `doc.get(field, default)` -/
def get (doc : Document) (field : String) (default : FieldValue := .plain .null) : FieldValue :=
  (List.lookup field doc).getD default

end Document

def PolicyType.ofValue : FieldValue → Except Exc PolicyType :=
  FieldValue.member "PolicyType" [.act, .smolvla] PolicyType.value

def SourceType.ofValue : FieldValue → Except Exc SourceType :=
  FieldValue.member "SourceType" [.hfHub, .zipUpload] SourceType.value

def JobStatus.ofValue : FieldValue → Except Exc JobStatus :=
  FieldValue.member "JobStatus"
    [.queued, .initializing, .training, .completed, .failed, .cancelled] JobStatus.value

def AuthProvider.value : AuthProvider → String
  | email => "email"
  | huggingface => "huggingface"

def AuthProvider.ofValue : FieldValue → Except Exc AuthProvider :=
  FieldValue.member "AuthProvider" [.email, .huggingface] AuthProvider.value

open FieldValue

def progressToDoc (progress : Progress) : Document :=
  [("step", .plain progress.step),
    ("total_steps", .plain progress.totalSteps),
    ("loss", .plain progress.loss),
    ("updated_at", .time progress.updatedAt)]

def jobToDoc (job : Job) : Document :=
  [("user_id", .str job.userId),
    ("policy", .str job.policy.value),
    ("source_type", .str job.sourceType.value),
    ("source_ref", .str job.sourceRef),
    ("training_steps", .int job.trainingSteps),
    ("status", .str job.status.value),
    ("container_id", orNone .str job.containerId),
    ("heartbeat_at", orNone .time job.heartbeatAt),
    ("progress", orNone (fun progress => .map (progressToDoc progress)) job.progress),
    ("cancel_requested", .bool job.cancelRequested),
    ("checkpoint_gcs_path", orNone .str job.checkpointGcsPath),
    ("error_message", orNone .str job.errorMessage),
    ("created_at", .time job.createdAt),
    ("updated_at", .time job.updatedAt)]

/-- The nested record, unless the value of the field is one that `not` holds of. -/
def docToProgress (progressDoc : FieldValue) : Except Exc (Option Progress) :=
  if progressDoc.truthy then do
    let doc ← typed asDoc? progressDoc
    let step ← typed asJson? (← doc.item "step")
    let totalSteps ← typed asJson? (← doc.item "total_steps")
    let loss ← typed asJson? (← doc.item "loss")
    let updatedAt ← typed asTime? (← doc.item "updated_at")
    return some { step, totalSteps, loss, updatedAt }
  else .ok none

def docToJob (jobId : String) (doc : Document) : Except Exc Job := do
  let progress ← docToProgress (doc.get "progress")
  let userId ← typed asStr? (← doc.item "user_id")
  let policy ← PolicyType.ofValue (← doc.item "policy")
  let sourceType ← SourceType.ofValue (← doc.item "source_type")
  let sourceRef ← typed asStr? (← doc.item "source_ref")
  let trainingSteps ← typed asInt? (← doc.item "training_steps")
  let status ← JobStatus.ofValue (← doc.item "status")
  let containerId ← optional asStr? (doc.get "container_id")
  let heartbeatAt ← optional asTime? (doc.get "heartbeat_at")
  let cancelRequested ← typed asBool? (doc.get "cancel_requested" (.bool false))
  let checkpointGcsPath ← optional asStr? (doc.get "checkpoint_gcs_path")
  let errorMessage ← optional asStr? (doc.get "error_message")
  let createdAt ← typed asTime? (← doc.item "created_at")
  let updatedAt ← typed asTime? (← doc.item "updated_at")
  return {
    id := jobId, userId, policy, sourceType, sourceRef, trainingSteps, status, containerId,
    heartbeatAt, progress, cancelRequested, checkpointGcsPath, errorMessage, createdAt, updatedAt }

/-- Days count from the epoch: the first of January of year 1 is this many days before it. -/
def epochDay : ℤ := 719162

/-- A date is a day of the years 1 to 9999. -/
def IsDate (day : ℤ) : Prop := -epochDay ≤ day ∧ day + epochDay < 3652059

instance (day : ℤ) : Decidable (IsDate day) := inferInstanceAs (Decidable (_ ∧ _))

def isoformat (day : ℤ) : String := Calendar.isoformat (Calendar.ofDays (day + epochDay).toNat)

def fromisoformat (text : String) : Except Exc ℤ :=
  match Calendar.fromisoformat text with
  | some date => .ok (Calendar.toDays date - epochDay)
  | none => .error (.other "ValueError" s!"Invalid isoformat string: '{text}'")

def userToDoc (user : User) : Document :=
  [("auth_provider", .str user.authProvider.value),
    ("email", orNone .str user.email),
    ("password_hash", orNone .str user.passwordHash),
    ("hf_user_id", orNone .str user.hfUserId),
    ("daily_quota_used", .int user.dailyQuotaUsed),
    ("quota_reset_date", orNone (fun day => .str (isoformat day)) user.quotaResetDate),
    ("created_at", .time user.createdAt)]

def docToQuotaResetDate (quotaResetDate : FieldValue) : Except Exc (Option ℤ) :=
  if quotaResetDate.truthy then do
    let day ← fromisoformat (← typed asStr? quotaResetDate)
    return some day
  else .ok none

def docToUser (userId : String) (doc : Document) : Except Exc User := do
  let authProvider ← AuthProvider.ofValue (← doc.item "auth_provider")
  let email ← optional asStr? (doc.get "email")
  let passwordHash ← optional asStr? (doc.get "password_hash")
  let hfUserId ← optional asStr? (doc.get "hf_user_id")
  let dailyQuotaUsed ← typed asNat? (doc.get "daily_quota_used" (.int 0))
  let quotaResetDate ← docToQuotaResetDate (doc.get "quota_reset_date")
  let createdAt ← typed asTime? (← doc.item "created_at")
  return {
    id := userId, authProvider, email, passwordHash, hfUserId, dailyQuotaUsed, quotaResetDate,
    createdAt }

/-! What was encoded is decoded again. -/

theorem PolicyType.ofValue_value (policy : PolicyType) :
    ofValue (.str policy.value) = .ok policy := by
  cases policy <;> rfl

theorem SourceType.ofValue_value (sourceType : SourceType) :
    ofValue (.str sourceType.value) = .ok sourceType := by
  cases sourceType <;> rfl

theorem JobStatus.ofValue_value (status : JobStatus) :
    ofValue (.str status.value) = .ok status := by
  cases status <;> rfl

theorem AuthProvider.ofValue_value (authProvider : AuthProvider) :
    ofValue (.str authProvider.value) = .ok authProvider := by
  cases authProvider <;> rfl

@[simp] theorem optional_asStr? (text : Option String) :
    optional asStr? (orNone FieldValue.str text) = .ok text := by
  cases text <;> rfl

@[simp] theorem optional_asTime? (t : Option ℤ) :
    optional asTime? (orNone .time t) = .ok t := by
  cases t <;> rfl

/-- The encoded record has fields, so `not` does not hold of it. -/
theorem docToProgress_progressToDoc (progress : Option Progress) :
    docToProgress (orNone (fun progress => .map (progressToDoc progress)) progress) =
      .ok progress := by
  cases progress <;> rfl

theorem docToJob_jobToDoc (job : Job) : docToJob job.id (jobToDoc job) = .ok job := by
  have hprogress : docToProgress ((jobToDoc job).get "progress") = .ok job.progress :=
    docToProgress_progressToDoc job.progress
  have hpolicy := PolicyType.ofValue_value job.policy
  have hsource := SourceType.ofValue_value job.sourceType
  have hstatus := JobStatus.ofValue_value job.status
  unfold docToJob
  rw [hprogress]
  simp [jobToDoc, Document.item, Document.get, List.lookup_cons, bind, Except.bind, pure, Except.pure,
    hpolicy, hsource, hstatus, typed, asStr?, asTime?, asBool?, asInt?]

theorem fromisoformat_isoformat {day : ℤ} (h : IsDate day) :
    fromisoformat (isoformat day) = .ok day := by
  obtain ⟨hfirst, hlast⟩ := h
  have hvalid : (Calendar.ofDays (day + epochDay).toNat).Valid := by
    apply Calendar.valid_ofDays
    omega
  have hday : ((day + epochDay).toNat : ℤ) - epochDay = day := by omega
  unfold fromisoformat isoformat
  rw [Calendar.fromisoformat_isoformat hvalid]
  dsimp only
  rw [Calendar.toDays_ofDays, hday]

theorem docToQuotaResetDate_isoformat {date : Option ℤ} (h : ∀ day ∈ date, IsDate day) :
    docToQuotaResetDate (orNone (fun day => .str (isoformat day)) date) = .ok date := by
  cases date with
  | none => rfl
  | some day =>
    have htext : (FieldValue.str (isoformat day)).truthy = true :=
      decide_eq_true (Calendar.isoformat_ne_empty _)
    have hday := fromisoformat_isoformat (h day rfl)
    unfold docToQuotaResetDate orNone
    dsimp only
    rw [if_pos htext]
    simp only [typed, asStr?, bind, Except.bind, hday]
    rfl

/-- The quota of the user was reset on a date, if at all. -/
def User.Dated (user : User) : Prop := ∀ day ∈ user.quotaResetDate, IsDate day

theorem docToUser_userToDoc {user : User} (h : user.Dated) :
    docToUser user.id (userToDoc user) = .ok user := by
  have hdate : docToQuotaResetDate ((userToDoc user).get "quota_reset_date") =
      .ok user.quotaResetDate := docToQuotaResetDate_isoformat h
  have hprovider := AuthProvider.ofValue_value user.authProvider
  unfold docToUser
  rw [hdate]
  simp [userToDoc, Document.item, Document.get, List.lookup_cons, bind, Except.bind, pure, Except.pure,
    hprovider, typed, asTime?, asNat?]

end TrainVla
