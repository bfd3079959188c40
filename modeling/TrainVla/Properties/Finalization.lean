import TrainVla.System.CompletionRun
import TrainVla.System.Operations

/-! A job whose container has exited is finalized by the tick that monitors it, unless reading
its progress raises. -/
namespace TrainVla

open Interaction Store JobCompletion

/-- The checkpoint was packaged. -/
def Packaged (t : List (Sigma Call.Resp)) : Prop := .ok () ∈ packagings t

/-- The checkpoint was uploaded. -/
def Uploaded (t : List (Sigma Call.Resp)) : Prop := .ok () ∈ uploads t

/-- The checkpoint is there, and every attempt to upload it failed. -/
def UploadsFailed (exitCode : ℤ) (t : List (Sigma Call.Resp)) : Prop :=
  exitCode = 0 ∧ Packaged t ∧ ¬ Uploaded t

/-- A number that no message about this exit code is longer than. -/
def messageBound (exitCode : ℤ) : ℕ :=
  s!"Training container exited with code {exitCode}".length +
    ("\n\n--- last lines of container output ---\n".length +
      ("...(truncated)...\n".length + maxLogChars))

/-- The message of the document states the exit code, and ends as the log does. -/
structure ReportsExit (exitCode : ℤ) (logs message : String) (new : Job) : Prop where
  stored : new.errorMessage = some message
  code : s!"Training container exited with code {exitCode}".toList <+: message.toList
  log : logs.toList.drop (logs.length - min logs.length maxLogChars) <:+ message.toList
  bounded : message.length ≤ messageBound exitCode

/-- What finalizing the job does between the two worlds, with these calls. -/
structure Finalized (w w' : World) (job : Job) (exitCode : ℤ) (retries : ℕ)
    (t : List (Sigma Call.Resp)) : Prop where
  document : ∃ new, w'.jobs.get? job.id = some new ∧
    (new.status = .completed ∨ new.status = .failed) ∧
    (new.status = .completed ↔ exitCode = 0 ∧ Packaged t ∧ Uploaded t) ∧
    (exitCode ≠ 0 → ∃ containerId logs message, job.container? = some containerId ∧
      ⟨.dockerGetLogs containerId, logs⟩ ∈ t ∧ ReportsExit exitCode logs message new)
  packaged_once : exitCode = 0 → (packagings t).length = 1
  uploads_only : uploads t ≠ [] → exitCode = 0 ∧ Packaged t
  uploads_until : exitCode = 0 → Packaged t → UntilSuccess (retries + 1) (uploads t)
  removed : ¬ UploadsFailed exitCode t → w'.jobDirs = w.jobDirs.erase job.id
  kept : UploadsFailed exitCode t → w'.jobDirs = w.jobDirs
  other_jobs : ∀ jobId, jobId ≠ job.id → w'.jobs.get? jobId = w.jobs.get? jobId

/-- A completion tick that nobody interferes with returns, and has finalized the job. -/
def Finalizes (D : Deployment) (xs : ℕ → Choice) (w : World) (job : Job) (exitCode : ℤ) : Prop :=
  ∃ r w', eval (World.exec D.steady) xs w (tick D.lib D.settings) = some (.ok r, w') ∧
    Finalized w w' job exitCode D.settings.uploadRetries
      (exchanges (World.exec D.steady) xs w (tick D.lib D.settings))

/-- A progress file that has a shape which the reader is prepared for: nothing that can be
decoded, without nesting too deep to find that out, or an object in which the timestamp is a string
if no field is missing. -/
def Legible : Option ProgressFile → Prop
  | some (.json (.obj items)) => ∀ timestamp, (Json.item? "step" items).isSome = true →
      (Json.item? "total_steps" items).isSome = true → (Json.item? "loss" items).isSome = true →
      Json.item? "timestamp" items = some timestamp → ∃ text, timestamp = .str text
  | some (.json _) => False
  | some .tooDeep => False
  | _ => True

namespace Finalization

theorem progressOf_ok_iff (fromIsoformat : String → Option ℤ) (items : List (String × Json)) :
    (∃ progress, ProgressReader.progressOf fromIsoformat items = .ok progress) ↔
      Legible (some (.json (.obj items))) := by
  unfold ProgressReader.progressOf Legible
  cases hstep : Json.item? "step" items with
  | none => simp [hstep]
  | some step =>
    cases htotal : Json.item? "total_steps" items with
    | none => simp [htotal]
    | some totalSteps =>
      cases hloss : Json.item? "loss" items with
      | none => simp [hloss]
      | some loss =>
        cases htime : Json.item? "timestamp" items with
        | none => simp [htime]
        | some timestamp => cases timestamp <;> simp [hstep, htotal, hloss, htime]

theorem readProgress_ok_iff (lib : Library) (file : Option ProgressFile) :
    (∃ progress, ProgressReader.readProgress lib file = .ok progress) ↔ Legible file := by
  cases file with
  | none => simp [ProgressReader.readProgress, Legible]
  | some file =>
    cases file with
    | undecodable => simp [ProgressReader.readProgress, Legible]
    | malformed => simp [ProgressReader.readProgress, Legible]
    | tooDeep => simp [ProgressReader.readProgress, Legible]
    | longInteger value => simp [ProgressReader.readProgress, Legible]
    | json value =>
      cases value with
      | obj items => exact progressOf_ok_iff lib.fromIsoformat items
      | _ => simp [ProgressReader.readProgress, Legible]

theorem exitMessage_code (exitCode : ℤ) (logs : String) :
    s!"Training container exited with code {exitCode}".toList <+:
      (exitMessage exitCode logs).toList := by
  unfold exitMessage
  generalize s!"Training container exited with code {exitCode}" = message
  dsimp only
  split
  · exact List.prefix_refl _
  · rw [String.append_assoc, String.toList_append]
    exact List.prefix_append _ _

theorem truncateLogs_suffix (logs : String) :
    logs.toList.drop (logs.length - min logs.length maxLogChars) <:+
      (truncateLogs logs).toList := by
  unfold truncateLogs
  generalize maxLogChars = n
  generalize "...(truncated)...\n" = note
  split
  · exact List.drop_suffix _ _
  · rename_i hlong
    have hmin : min logs.length n = n := by omega
    rw [hmin, String.toList_append, String.toList_ofList]
    exact List.suffix_append _ _

theorem exitMessage_log (exitCode : ℤ) (logs : String) :
    logs.toList.drop (logs.length - min logs.length maxLogChars) <:+
      (exitMessage exitCode logs).toList := by
  have htruncated := truncateLogs_suffix logs
  unfold exitMessage
  generalize s!"Training container exited with code {exitCode}" = message
  dsimp only
  split
  · rename_i hempty
    rw [hempty]
    exact List.nil_suffix
  · rw [String.toList_append]
    exact htruncated.trans (List.suffix_append _ _)

theorem truncateLogs_length (logs : String) :
    (truncateLogs logs).length ≤ "...(truncated)...\n".length + maxLogChars := by
  unfold truncateLogs
  generalize maxLogChars = n
  generalize "...(truncated)...\n" = note
  split
  · omega
  · rw [String.length_append, String.length_ofList, List.length_drop, String.length_toList]
    omega

theorem exitMessage_length (exitCode : ℤ) (logs : String) :
    (exitMessage exitCode logs).length ≤ messageBound exitCode := by
  have htruncated := truncateLogs_length logs
  unfold exitMessage messageBound
  generalize s!"Training container exited with code {exitCode}" = message
  generalize "\n\n--- last lines of container output ---\n" = heading
  dsimp only
  split
  · omega
  · rw [String.length_append, String.length_append]
    omega

section

variable {w w₁ w' : World} {job job₁ : Job} {exitCode : ℤ} {retries : ℕ}
  {t t' : List (Sigma Call.Resp)}

/-- What happened before is none of the finalization. -/
theorem finalized_prepend (hquiet : Quiet t) (honly : Only job.id w w₁) (hsame : Same job job₁)
    (h : Finalized w₁ w' job₁ exitCode retries t') :
    Finalized w w' job exitCode retries (t ++ t') := by
  have hpackagings : packagings (t ++ t') = packagings t' := by
    rw [packagings_append, hquiet.1]
    rfl
  have huploads : uploads (t ++ t') = uploads t' := by
    rw [uploads_append, hquiet.2]
    rfl
  have hcontainer : job₁.container? = job.container? := by
    unfold Job.container?
    rw [hsame.containerId]
  obtain ⟨hdocument, honce, hupload, huntil, hremoved, hkept, hother⟩ := h
  constructor
  case document =>
    obtain ⟨new, hnew, hended, hcompleted, hmessage⟩ := hdocument
    unfold Packaged Uploaded
    rw [hpackagings, huploads, ← hsame.id]
    refine ⟨new, hnew, hended, hcompleted, fun hcode => ?_⟩
    obtain ⟨containerId, logs, message, hid, hmem, hreport⟩ := hmessage hcode
    rw [hcontainer] at hid
    exact ⟨containerId, logs, message, hid, List.mem_append_right t hmem,
      hreport⟩
  case packaged_once =>
    rw [hpackagings]
    exact honce
  case uploads_only =>
    unfold Packaged
    rw [hpackagings, huploads]
    exact hupload
  case uploads_until =>
    unfold Packaged
    rw [hpackagings, huploads]
    exact huntil
  case removed =>
    unfold UploadsFailed Packaged Uploaded
    rw [hpackagings, huploads, ← honly.jobDirs, ← hsame.id]
    exact hremoved
  case kept =>
    unfold UploadsFailed Packaged Uploaded
    rw [hpackagings, huploads, ← honly.jobDirs]
    exact hkept
  case other_jobs =>
    intro jobId hne
    rw [← honly.others jobId hne]
    exact hother jobId (hsame.id ▸ hne)

end

section

variable {xs : ℕ → Choice} {w w' : World} {job : Job} {settings : WorkerSettings}
  {t : List (Sigma Call.Resp)}

theorem finalize_of_error {exitCode : ℤ} {containerId : String} (h : job.status = .training)
    (hcode : exitCode ≠ 0) (hcontainer : job.container? = some containerId) :
    finalize settings job exitCode = perform (.dockerGetLogs containerId) >>=
      fun logs => markFailed job (exitMessage exitCode logs) true := by
  have hlogs : getLogs job = perform (.dockerGetLogs containerId) := by
    unfold getLogs
    rw [hcontainer]
  rw [← hlogs]
  unfold finalize
  rw [enterTraining_of_training h]
  exact if_pos hcode

theorem finalize_of_zero (h : job.status = .training) : finalize settings job 0 = (do
    match ← perform (.packageCheckpoint job.id) with
    | .error e => markFailed job s!"Failed to package checkpoint: {e.str}" true
    | .ok () =>
      let uploaded ← uploadWithRetries settings (checkpointPath job.id) job.id
      if uploaded then markCompleted job (checkpointPath job.id)
      else markFailed job uploadFailedMessage false) := by
  unfold finalize
  rw [enterTraining_of_training h]
  rfl

/-- A job other than this one is not touched by a write of this one. -/
theorem other_of_put {new : Job} (hjobs : w'.jobs = w.jobs.put new) (hid : new.id = job.id) :
    ∀ jobId, jobId ≠ job.id → w'.jobs.get? jobId = w.jobs.get? jobId := by
  intro jobId hne
  rw [hjobs, Table.get?_put, if_neg (hid ▸ hne)]

theorem finalized_of_error {failed : Job} {exitCode : ℤ} {retries : ℕ} {containerId logs : String}
    (hcode : exitCode ≠ 0) (hcontainer : job.container? = some containerId)
    (hjobs : w'.jobs = w.jobs.put failed) (hid : failed.id = job.id)
    (hstatus : failed.status = .failed)
    (hmessage : failed.errorMessage = some (exitMessage exitCode logs)) (hquiet : Quiet t)
    (hdirs : w'.jobDirs = w.jobDirs.erase job.id) :
    Finalized w w' job exitCode retries (⟨.dockerGetLogs containerId, logs⟩ :: t) := by
  have huploads : uploads (⟨.dockerGetLogs containerId, logs⟩ :: t) = [] := hquiet.2
  constructor
  case document =>
    refine ⟨failed, ?_, .inr hstatus, ?_, fun _ => ?_⟩
    · rw [hjobs, ← hid, Table.get?_put_self]
    · rw [hstatus]
      exact ⟨JobStatus.noConfusion, fun h => absurd h.1 hcode⟩
    · exact ⟨containerId, logs, exitMessage exitCode logs, hcontainer, List.mem_cons_self, hmessage,
        exitMessage_code exitCode logs, exitMessage_log exitCode logs,
        exitMessage_length exitCode logs⟩
  case packaged_once => exact fun h => absurd h hcode
  case uploads_only =>
    rw [huploads]
    exact fun h => absurd rfl h
  case uploads_until => exact fun h => absurd h hcode
  case removed => exact fun _ => hdirs
  case kept => exact fun h => absurd h.1 hcode
  case other_jobs => exact other_of_put hjobs hid

theorem finalized_of_unpackaged {failed : Job} {retries : ℕ} {e : Exc}
    (hjobs : w'.jobs = w.jobs.put failed) (hid : failed.id = job.id)
    (hstatus : failed.status = .failed) (hquiet : Quiet t)
    (hdirs : w'.jobDirs = w.jobDirs.erase job.id) :
    Finalized w w' job 0 retries (⟨.packageCheckpoint job.id, .error e⟩ :: t) := by
  have hpackagings : packagings (⟨.packageCheckpoint job.id, .error e⟩ :: t) = [.error e] :=
    congrArg (List.cons _) hquiet.1
  have huploads : uploads (⟨.packageCheckpoint job.id, .error e⟩ :: t) = [] := hquiet.2
  have hnot : ¬ Packaged (⟨.packageCheckpoint job.id, .error e⟩ :: t) := by
    unfold Packaged
    rw [hpackagings]
    simp
  constructor
  case document =>
    refine ⟨failed, ?_, .inr hstatus, ?_, fun h => absurd rfl h⟩
    · rw [hjobs, ← hid, Table.get?_put_self]
    · rw [hstatus]
      exact ⟨JobStatus.noConfusion, fun h => absurd h.2.1 hnot⟩
  case packaged_once =>
    rw [hpackagings]
    exact fun _ => rfl
  case uploads_only =>
    rw [huploads]
    exact fun h => absurd rfl h
  case uploads_until => exact fun _ h => absurd h hnot
  case removed => exact fun _ => hdirs
  case kept => exact fun h => absurd h.2.1 hnot
  case other_jobs => exact other_of_put hjobs hid

theorem finalized_of_uploads {final : Job} {retries : ℕ} {us : List (Sigma Call.Resp)}
    (hjobs : w'.jobs = w.jobs.put final) (hid : final.id = job.id)
    (hended : final.status = .completed ∨ final.status = .failed)
    (hcompleted : final.status = .completed ↔ .ok () ∈ uploads us) (hpackaged : packagings us = [])
    (huntil : UntilSuccess (retries + 1) (uploads us)) (hquiet : Quiet t)
    (hdirs : w'.jobDirs = if final.status = .completed then w.jobDirs.erase job.id else w.jobDirs) :
    Finalized w w' job 0 retries (⟨.packageCheckpoint job.id, .ok ()⟩ :: (us ++ t)) := by
  have hpackagings : packagings (⟨.packageCheckpoint job.id, .ok ()⟩ :: (us ++ t)) = [.ok ()] := by
    have hrest : packagings (us ++ t) = [] := by
      rw [packagings_append, hpackaged, hquiet.1]
      rfl
    exact congrArg (List.cons _) hrest
  have huploads : uploads (⟨.packageCheckpoint job.id, .ok ()⟩ :: (us ++ t)) = uploads us := by
    have hrest : uploads (us ++ t) = uploads us := by
      rw [uploads_append, hquiet.2, List.append_nil]
    exact hrest
  have hyes : Packaged (⟨.packageCheckpoint job.id, .ok ()⟩ :: (us ++ t)) := by
    unfold Packaged
    rw [hpackagings]
    exact List.mem_singleton_self _
  have hfailed : UploadsFailed 0 (⟨.packageCheckpoint job.id, .ok ()⟩ :: (us ++ t)) ↔
      final.status ≠ .completed := by
    unfold UploadsFailed Uploaded
    rw [huploads, ← hcompleted]
    exact ⟨fun h => h.2.2, fun h => ⟨rfl, hyes, h⟩⟩
  constructor
  case document =>
    refine ⟨final, ?_, hended, ?_, fun h => absurd rfl h⟩
    · rw [hjobs, ← hid, Table.get?_put_self]
    · unfold Uploaded
      rw [huploads, hcompleted]
      exact ⟨fun h => ⟨rfl, hyes, h⟩, fun h => h.2.2⟩
  case packaged_once =>
    rw [hpackagings]
    exact fun _ => rfl
  case uploads_only => exact fun _ => ⟨rfl, hyes⟩
  case uploads_until =>
    rw [huploads]
    exact fun _ _ => huntil
  case removed =>
    rw [hfailed, not_not, hdirs]
    exact fun h => if_pos h
  case kept =>
    rw [hfailed, hdirs]
    exact fun h => if_neg h
  case other_jobs => exact other_of_put hjobs hid

/-- The end of a job that trains. -/
theorem evalsTo_finalize_training (xs : ℕ → Choice) (w : World) (settings : WorkerSettings)
    {exitCode : ℤ} {containerId : String}
    (h : job.status = .training) (hcontainer : job.container? = some containerId) :
    ∃ t new w' ys, EvalsTo (World.exec false) xs w (finalize settings job exitCode) t (.ok new) w'
        ys ∧ Finalized w w' job exitCode settings.uploadRetries t := by
  by_cases hcode : exitCode = 0
  · subst hcode
    rw [finalize_of_zero h]
    cases hfault : (xs 0).fault with
    | some e =>
      have hexec : World.exec false (xs 0) w (.packageCheckpoint job.id) = some (.error e, w) := by
        simp only [World.exec, Choice.outcome, hfault]
      obtain ⟨t, w', ys, hrun, hquiet, hjobs, hdirs⟩ := evalsTo_markFailed
        (fun n => xs (n + 1)) w h s!"Failed to package checkpoint: {e.str}" true
      exact ⟨_, _, w', ys, .step hexec hrun, finalized_of_unpackaged hjobs rfl rfl hquiet hdirs⟩
    | none =>
      have hexec : World.exec false (xs 0) w (.packageCheckpoint job.id) = some (.ok (), w) := by
        simp only [World.exec, Choice.outcome, hfault]
      obtain ⟨us, uploaded, w₁, ys, hupload, hiff, hpackaged, huntil, honly, hjobs₁⟩ :=
        evalsTo_uploadAttempts (fun n => xs (n + 1)) w (checkpointPath job.id) job.id
          (1 + settings.uploadRetries)
      rw [Nat.add_comm] at huntil
      cases uploaded with
      | true =>
        obtain ⟨t, w', zs, hrun, hquiet, hjobs, hdirs⟩ := evalsTo_markCompleted
          ys w₁ h (checkpointPath job.id)
        rw [hjobs₁] at hjobs
        rw [honly.jobDirs] at hdirs
        exact ⟨_, _, w', zs, .step hexec (hupload.bind hrun),
          finalized_of_uploads hjobs rfl (.inl rfl) ⟨fun _ => hiff.mp rfl, fun _ => rfl⟩ hpackaged
            huntil hquiet hdirs⟩
      | false =>
        obtain ⟨t, w', zs, hrun, hquiet, hjobs, hdirs⟩ := evalsTo_markFailed
          ys w₁ h uploadFailedMessage false
        rw [hjobs₁] at hjobs
        rw [honly.jobDirs] at hdirs
        have hnone : .ok () ∉ uploads us := fun hmem => Bool.false_ne_true (hiff.mpr hmem)
        exact ⟨_, _, w', zs, .step hexec (hupload.bind hrun),
          finalized_of_uploads hjobs rfl (.inr rfl)
            ⟨fun h => JobStatus.noConfusion h, fun hmem => absurd hmem hnone⟩ hpackaged huntil hquiet
            hdirs⟩
  · rw [finalize_of_error h hcode hcontainer]
    obtain ⟨t, w', ys, hrun, hquiet, hjobs, hdirs⟩ := evalsTo_markFailed
      (fun n => xs (n + 1)) w h
      (exitMessage exitCode (if w.containers.stateOf containerId = .removed then "" else (xs 0).text))
      true
    exact ⟨_, _, w', ys, .step rfl hrun, finalized_of_error hcode hcontainer hjobs rfl rfl rfl hquiet hdirs⟩

theorem evalsTo_finalize (xs : ℕ → Choice) (w : World) (settings : WorkerSettings) {exitCode : ℤ} {containerId : String}
    (h : job.status = .initializing ∨ job.status = .training)
    (hcontainer : job.container? = some containerId) :
    ∃ t new w' ys, EvalsTo (World.exec false) xs w (finalize settings job exitCode) t (.ok new) w'
        ys ∧ Finalized w w' job exitCode settings.uploadRetries t := by
  obtain ⟨t, job₁, w₁, ys, henter, hquiet, honly, hsame, hstatus⟩ :=
    evalsTo_enterTraining xs w h
  have hcontainer₁ : job₁.container? = some containerId := by
    unfold Job.container?
    rw [hsame.containerId]
    exact hcontainer
  obtain ⟨t', new, w', zs, hrun, hfinalized⟩ := evalsTo_finalize_training ys w₁
    settings hstatus hcontainer₁
  unfold finalize at hrun
  rw [enterTraining_of_training hstatus] at hrun
  exact ⟨t ++ t', new, w', zs, henter.bind hrun, finalized_prepend hquiet honly hsame hfinalized⟩

/-- What the exit code of the container is. -/
theorem exec_getExitCode {exitCode : ℤ} {containerId : String} (o : Choice)
    (h : w.containers.stateOf containerId = .exited exitCode) :
    World.exec false o w (.dockerGetExitCode containerId) = some (some exitCode, w) := by
  simp only [World.exec, Containers.getExitCode, h]

/-- The tick for the job that is monitored, when its container has exited. -/
theorem evalsTo_monitor (xs : ℕ → Choice) (settings : WorkerSettings) {lib : Library} {exitCode : ℤ} {containerId : String}
    {progress : Option Progress}
    (h : job.status = .initializing ∨ job.status = .training)
    (hcontainer : job.container? = some containerId)
    (hexit : w.containers.stateOf containerId = .exited exitCode)
    (hprogress : ProgressReader.readProgress lib (w.progressFile job.id) = .ok progress) :
    ∃ t r w' ys, EvalsTo (World.exec false) xs w (monitor lib settings job) t (.ok r) w' ys ∧
      Finalized w w' job exitCode settings.uploadRetries t := by
  obtain ⟨t, job₁, w₁, ys, hfollow, hquiet, honly, hsame, hstatus⟩ :=
    evalsTo_followProgress (fun n => xs (n + 2)) w h progress (some exitCode)
  have hcontainer₁ : job₁.container? = some containerId := by
    unfold Job.container?
    rw [hsame.containerId]
    exact hcontainer
  obtain ⟨t', new, w', zs, hrun, hfinalized⟩ := evalsTo_finalize ys w₁ settings
    hstatus hcontainer₁
  have hquiet' : Quiet (⟨.readProgressFile job.id, w.progressFile job.id⟩ ::
      ⟨.dockerGetExitCode containerId, some exitCode⟩ :: t) := hquiet
  have hread : EvalsTo (World.exec false) (fun n => xs (n + 1)) w
      (Prog.ofExcept (ProgressReader.readProgress lib (w.progressFile job.id))) [] (.ok progress) w
      fun n => xs (n + 1) :=
    .ofExcept_eq hprogress
  have hcode : EvalsTo (World.exec false) (fun n => xs (n + 1)) w (getExitCode job)
      [⟨.dockerGetExitCode containerId, some exitCode⟩] (.ok (some exitCode)) w
      fun n => xs (n + 2) := by
    unfold getExitCode
    rw [hcontainer]
    exact .perform (exec_getExitCode _ hexit)
  have hend : EvalsTo (World.exec false) ys w₁
      (finalize settings job₁ exitCode >>= fun job => pure (some job)) t' (.ok (some new)) w' zs := by
    have happend := hrun.bind (f := fun job => pure (some job)) .pure
    rwa [List.append_nil] at happend
  unfold monitor
  exact ⟨_, some new, w', zs, .step rfl (hread.bind (hcode.bind (hfollow.bind hend))),
    finalized_prepend hquiet' honly hsame hfinalized⟩

/-- Whatever the state of its container is, the tick for a job touches no other document. -/
theorem evalsTo_monitor_any (xs : ℕ → Choice) (settings : WorkerSettings) {lib : Library} {progress : Option Progress}
    (h : job.status = .initializing ∨ job.status = .training)
    (hprogress : ProgressReader.readProgress lib (w.progressFile job.id) = .ok progress) :
    ∃ t r w' ys, EvalsTo (World.exec false) xs w (monitor lib settings job) t (.ok r) w' ys ∧
      ∀ jobId, jobId ≠ job.id → w'.jobs.get? jobId = w.jobs.get? jobId := by
  have hread : EvalsTo (World.exec false) (fun n => xs (n + 1)) w
      (Prog.ofExcept (ProgressReader.readProgress lib (w.progressFile job.id))) [] (.ok progress) w
      fun n => xs (n + 1) :=
    .ofExcept_eq hprogress
  have hrunning : ∀ {t ys}, EvalsTo (World.exec false) (fun n => xs (n + 1)) w (getExitCode job) t
      (.ok none) w ys → ∃ t r w' ys, EvalsTo (World.exec false) xs w (monitor lib settings job) t
        (.ok r) w' ys ∧ ∀ jobId, jobId ≠ job.id → w'.jobs.get? jobId = w.jobs.get? jobId := by
    intro t ys hcode
    obtain ⟨t', job₁, w₁, zs, hfollow, -, honly, -⟩ :=
      evalsTo_followProgress ys w h progress none
    unfold monitor
    exact ⟨_, some job₁, w₁, zs, .step rfl (hread.bind (hcode.bind (hfollow.bind .pure))),
      honly.others⟩
  cases hcontainer : job.container? with
  | none =>
    have hcode : getExitCode job = pure none := by
      unfold getExitCode
      rw [hcontainer]
    apply hrunning
    rw [hcode]
    exact .pure
  | some containerId =>
    have hcode : getExitCode job = perform (.dockerGetExitCode containerId) := by
      unfold getExitCode
      rw [hcontainer]
    cases hstate : w.containers.stateOf containerId with
    | exited exitCode =>
      obtain ⟨t, r, w', ys, hrun, hfinalized⟩ := evalsTo_monitor xs settings h
        hcontainer hstate hprogress
      exact ⟨t, r, w', ys, hrun, hfinalized.other_jobs⟩
    | _ =>
      apply hrunning
      rw [hcode]
      apply EvalsTo.perform
      simp only [World.exec, Containers.getExitCode, hstate]

theorem evalsTo_monitor_raise (xs : ℕ → Choice) (settings : WorkerSettings) {lib : Library} {e : Exc}
    (hprogress : ProgressReader.readProgress lib (w.progressFile job.id) = .error e) :
    EvalsTo (World.exec false) xs w (monitor lib settings job)
      [⟨.readProgressFile job.id, w.progressFile job.id⟩] (.error e) w fun n => xs (n + 1) := by
  have hread : EvalsTo (World.exec false) (fun n => xs (n + 1)) w
      (Prog.ofExcept (ProgressReader.readProgress lib (w.progressFile job.id))) [] (.error e) w
      fun n => xs (n + 1) :=
    .ofExcept_eq hprogress
  unfold monitor
  exact .step rfl hread.bind_error

end

end Finalization

open Finalization

/-- The job is the one that a tick monitors, and reading its progress does not raise. -/
theorem completion_tick_finalizes_iff (D : Deployment) {xs : ℕ → Choice} {w : World} {job : Job}
    {exitCode : ℤ} {containerId : String} (hclock : D.steady = true → ClockRuns w xs)
    (hjob : job ∈ w.jobs) (hactive : job.status = .initializing ∨ job.status = .training)
    (hcontainer : job.container? = some containerId)
    (hexit : w.containers.stateOf containerId = .exited exitCode) :
    Finalizes D xs w job exitCode ↔
      (w.jobs.listByStatuses monitoredStatuses).head? = some job ∧
        Legible (w.progressFile job.id) := by
  unfold Finalizes
  rw [World.eval_steady hclock, World.exchanges_steady hclock]
  have hmem : job ∈ w.jobs.listByStatuses monitoredStatuses := by
    apply JobTable.mem_listByStatuses.mpr
    refine ⟨hjob, ?_⟩
    rcases hactive with h | h <;> rw [h] <;> decide
  cases hlist : w.jobs.listByStatuses monitoredStatuses with
  | nil =>
    rw [hlist] at hmem
    cases hmem
  | cons first rest =>
    have hfirst : first ∈ w.jobs ∧ first.status ∈ monitoredStatuses := by
      apply JobTable.mem_listByStatuses.mp
      rw [hlist]
      exact List.mem_cons_self
    have hstatus : first.status = .initializing ∨ first.status = .training := by
      simpa [monitoredStatuses] using hfirst.2
    constructor
    · rintro ⟨r, w', heval, hfinalized⟩
      cases hread : ProgressReader.readProgress D.lib (w.progressFile first.id) with
      | error e =>
        have hrun := evalsTo_tick hlist
          (evalsTo_monitor_raise (fun n => xs (n + 1)) D.settings hread)
        rw [hrun.eval] at heval
        cases heval
      | ok progress =>
        obtain ⟨t, r₁, w₁, ys, hmonitor, hother⟩ := evalsTo_monitor_any
          (fun n => xs (n + 1)) D.settings hstatus hread
        have hrun := evalsTo_tick hlist hmonitor
        rw [hrun.eval] at heval
        obtain ⟨-, rfl⟩ := Prod.mk.inj (Option.some.inj heval)
        by_cases hid : first.id = job.id
        · obtain rfl := Table.eq_of_key_eq hfirst.1 hjob hid
          exact ⟨rfl, (readProgress_ok_iff _ _).mp ⟨progress, hread⟩⟩
        · obtain ⟨new, hnew, hended, -⟩ := hfinalized.document
          have hkept := hother job.id (Ne.symm hid)
          rw [hnew, Table.get?_of_mem hjob] at hkept
          obtain rfl := Option.some.inj hkept
          rcases hactive with hnow | hnow <;> rcases hended with hthen | hthen <;>
            · rw [hnow] at hthen
              cases hthen
    · rintro ⟨hhead, hlegible⟩
      obtain rfl := Option.some.inj hhead
      obtain ⟨progress, hread⟩ := (readProgress_ok_iff D.lib _).mpr hlegible
      obtain ⟨t, r, w', ys, hmonitor, hfinalized⟩ := evalsTo_monitor (fun n => xs (n + 1))
        D.settings hstatus hcontainer hexit hread
      have hrun := evalsTo_tick hlist hmonitor
      refine ⟨r, w', hrun.eval, ?_⟩
      rw [hrun.exchanges]
      exact finalized_prepend (t := [⟨.jobsListByStatuses monitoredStatuses, first :: rest⟩])
        ⟨rfl, rfl⟩ .rfl ⟨rfl, rfl⟩ hfinalized

namespace Finalization

def trained : Job :=
  { id := "j", userId := "user", policy := .act, sourceType := .hfHub, sourceRef := "org/dataset",
    trainingSteps := 100, status := .training, containerId := some "c", createdAt := 0,
    updatedAt := 0 }

/-- The container of the one job there is has exited, and left this progress file. -/
def exited (file : ProgressFile) : World :=
  { World.sample with
    jobs := Table.empty.put trained
    containers := Table.empty.put
      { id := "c", state := .exited 0,
        spec := { image := "", name := "", command := [], volumes := Table.empty, environment := [],
                  labels := [(lerobotJobIdLabel, "j")] } }
    jobDirs := Table.empty.put { jobId := "j", progress := some file } }

/-- A timestamp in seconds, where a text is expected. -/
def numericTimestamp : ProgressFile :=
  .json (.obj [("step", .int 100), ("total_steps", .int 100), ("loss", .int 0),
    ("timestamp", .int 1700000000)])

end Finalization

theorem completion_tick_finalizes_fails : ¬ ∀ (D : Deployment) (xs : ℕ → Choice) (w : World)
    (job : Job) (exitCode : ℤ) (containerId : String), (D.steady = true → ClockRuns w xs) →
    (w.jobs.listByStatuses monitoredStatuses).head? = some job →
    job.container? = some containerId → w.containers.stateOf containerId = .exited exitCode →
    Finalizes D xs w job exitCode := by
  intro h
  have hraises : (eval (World.exec Deployment.sample.steady) (fun _ => {}) (exited numericTimestamp)
      (tick Deployment.sample.lib Deployment.sample.settings)).any
        (fun out => !out.1.toBool) = true := by rfl
  obtain ⟨r, w', heval, -⟩ := h .sample (fun _ => {}) (exited numericTimestamp) trained 0 "c"
    (fun _ => ⟨le_refl 0, fun _ => le_refl 0⟩) rfl rfl rfl
  rw [heval] at hraises
  cases hraises

theorem completion_tick_finalizes_iff_malformed :
    Finalizes .sample (fun _ => {}) (exited .malformed) trained 0 ↔
      ((exited .malformed).jobs.listByStatuses monitoredStatuses).head? = some trained ∧
        Legible ((exited .malformed).progressFile trained.id) :=
  completion_tick_finalizes_iff .sample (fun _ => ⟨le_refl 0, fun _ => le_refl 0⟩)
    (Table.mem_put_self _ _) (.inr rfl) rfl rfl

end TrainVla
