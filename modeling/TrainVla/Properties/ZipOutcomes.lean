import TrainVla.System.Submissions

/-! Confirming an upload ends with a job, with a rejection that deletes the upload, or with a refused
job, unless a check raises what no handler names. -/
namespace TrainVla

open Interaction Store UploadService

inductive ConfirmOutcome
  | created
  | rejected
  | refused

/-- What the three outcomes are. The object of the upload is kept unless it is rejected. -/
def ConfirmOutcome.Holds (D : Deployment) (userId uploadId : String) (policy : PolicyType)
    (trainingSteps : ℤ) (data : Bytes) (w : World) (r : Except Exc Job) (w' : World) :
    ConfirmOutcome → Prop
  | created => ∃ job, r = .ok job ∧
      job.Fresh userId policy .zipUpload (objectPath userId uploadId) trainingSteps ∧
      w.jobs.get? job.id = none ∧ w'.jobs = w.jobs.put job ∧ w'.objects = w.objects
  | rejected => (∃ message, r = .error (.uploadValidation message)) ∧
      w'.objects = w.objects.erase (objectPath userId uploadId) ∧ w'.jobs = w.jobs
  | refused => DatasetOk D.lib D.limits policy data ∧ (∃ e, r = .error e ∧ e.Refuses) ∧
      w'.objects = w.objects ∧ w'.jobs = w.jobs

/-- The confirmation of an upload with this content ends, with exactly one of the outcomes. It is
rejected exactly when a check of the dataset fails. -/
def EndsClean (D : Deployment) (userId uploadId : String) (policy : PolicyType) (trainingSteps : ℤ)
    (data : Bytes) (w : World) : Prop :=
  (∀ xs, Answers D w xs → (eval (World.exec D.steady) xs w
    (confirmZipUpload D.lib D.limits userId uploadId policy trainingSteps)).isSome = true) ∧
  ∀ xs r w', eval (World.exec D.steady) xs w
      (confirmZipUpload D.lib D.limits userId uploadId policy trainingSteps) = some (r, w') →
    (∃! outcome : ConfirmOutcome,
      outcome.Holds D userId uploadId policy trainingSteps data w r w') ∧
    (ConfirmOutcome.rejected.Holds D userId uploadId policy trainingSteps data w r w' ↔
      ¬ DatasetOk D.lib D.limits policy data)

/-- `meta/info.json` can be read as a JSON object, or reading it raises what is handled. -/
def HandledInfo : Except Exc Json → Prop
  | .ok info => ∃ items, info = .obj items
  | .error e => (∃ m, e = .key m) ∨ (∃ m, e = .fileNotFound m) ∨ ∃ m, e = .invalidInfoJson m

/-- Nothing that the checks do with this content raises what no handler names. -/
def Handled (lib : Library) (limits : ValidationLimits) (data : Bytes) : Prop :=
  match lib.zipInfolist data with
  | .error e => ∃ m, e = .badZipFile m
  | .ok entries => (checkLerobotStructure (entries.map ZipEntryMeta.name)).ok = true →
      (checkDecompressionBomb entries limits).ok = true → HandledInfo (archivedInfo lib data)

namespace ZipOutcomes

section

variable {lib : Library} {limits : ValidationLimits} {policy : PolicyType} {data : Bytes}

theorem infoVerdict_raise {read : Except Exc Json} :
    (∃ e, infoVerdict policy read = .raise e) ↔ ¬ HandledInfo read := by
  cases read with
  | error e => cases e <;> simp [infoVerdict, HandledInfo]
  | ok info =>
    constructor
    · rintro ⟨e, h⟩ ⟨items, rfl⟩
      rcases infoVerdict_obj policy items with haccept | hreject
      · rw [haccept] at h
        cases h
      · rw [hreject] at h
        cases h
    · intro hno
      cases info with
      | obj items => exact absurd ⟨items, rfl⟩ hno
      | _ => exact ⟨_, rfl⟩

theorem zipVerdict_raise :
    (∃ e, zipVerdict lib limits policy data = .raise e) ↔ ¬ Handled lib limits data := by
  unfold zipVerdict Handled
  cases lib.zipInfolist data with
  | error e => cases e <;> simp
  | ok entries =>
    dsimp only
    by_cases hstructure : (checkLerobotStructure (entries.map ZipEntryMeta.name)).ok = true
    · by_cases hbomb : (checkDecompressionBomb entries limits).ok = true
      · simp [hstructure, hbomb, infoVerdict_raise]
      · simp [hstructure, hbomb]
    · simp [hstructure]

end

section

variable {D : Deployment} {w w' : World} {r : Except Exc Job} {userId uploadId : String}
  {policy : PolicyType} {trainingSteps : ℤ} {data : Bytes}

/-- The outcomes exclude each other. -/
theorem unique_of_holds {outcome : ConfirmOutcome}
    (h : outcome.Holds D userId uploadId policy trainingSteps data w r w') :
    ∃! outcome : ConfirmOutcome,
      outcome.Holds D userId uploadId policy trainingSteps data w r w' := by
  refine ⟨outcome, h, fun other hother => ?_⟩
  cases outcome with
  | created =>
    obtain ⟨job, rfl, -⟩ := h
    cases other with
    | created => rfl
    | rejected => obtain ⟨⟨message, heq⟩, -⟩ := hother; cases heq
    | refused => obtain ⟨-, ⟨e, heq, -⟩, -⟩ := hother; cases heq
  | rejected =>
    obtain ⟨⟨message, rfl⟩, -⟩ := h
    cases other with
    | created => obtain ⟨job, heq, -⟩ := hother; cases heq
    | rejected => rfl
    | refused => obtain ⟨-, ⟨e, heq, hrefuses⟩, -⟩ := hother; cases heq; cases hrefuses
  | refused =>
    obtain ⟨-, ⟨e, rfl, hrefuses⟩, -⟩ := h
    cases other with
    | created => obtain ⟨job, heq, -⟩ := hother; cases heq
    | rejected => obtain ⟨⟨message, heq⟩, -⟩ := hother; cases heq; cases hrefuses
    | refused => rfl

theorem endsClean_of_accept (hverdict : zipVerdict D.lib D.limits policy data = .accept)
    (hobject : w.objects.get? (objectPath userId uploadId) =
      some (objectPath userId uploadId, data)) :
    EndsClean D userId uploadId policy trainingSteps data w := by
  have hok := zipVerdict_accept.mp hverdict
  have hcreate : ∀ xs, ∃ log, eval (World.exec D.steady) xs w
      (confirmZipUpload D.lib D.limits userId uploadId policy trainingSteps) =
        eval (World.exec D.steady) (fun n => xs (n + 3)) { w with log := log }
          (JobService.createJob userId policy .zipUpload (objectPath userId uploadId)
            trainingSteps) := by
    intro xs
    have h := eval_confirmZipUpload D xs policy trainingSteps hobject
    rwa [hverdict] at h
  constructor
  · intro xs hxs
    obtain ⟨log, heval⟩ := hcreate xs
    rw [heval]
    exact createJob_ends ⟨(hxs.later 3).clock, (hxs.later 3).fresh⟩
  · intro xs r w' h
    obtain ⟨log, heval⟩ := hcreate xs
    rw [heval] at h
    obtain ⟨hobjects, hcases⟩ := createJob_some h
    have hends : ∃ outcome : ConfirmOutcome, outcome ≠ .rejected ∧
        outcome.Holds D userId uploadId policy trainingSteps data w r w' := by
      split at hcases
      · rename_i e he
        exact ⟨.refused, nofun, hok, ⟨e, hcases.1, refuses_of_refusal he⟩, hobjects, hcases.2⟩
      · obtain ⟨job, hr, hfresh, hid, hjobs⟩ := hcases
        exact ⟨.created, nofun, job, hr, hfresh, hid, hjobs, hobjects⟩
    obtain ⟨outcome, hne, hholds⟩ := hends
    have hunique := unique_of_holds hholds
    refine ⟨hunique, iff_of_false (fun hrejected => ?_) (not_not.mpr hok)⟩
    exact hne (hunique.unique hholds hrejected)

theorem endsClean_of_reject (hverdict : zipVerdict D.lib D.limits policy data = .reject)
    (hobject : w.objects.get? (objectPath userId uploadId) =
      some (objectPath userId uploadId, data)) :
    EndsClean D userId uploadId policy trainingSteps data w := by
  have hfails : ¬ DatasetOk D.lib D.limits policy data := by
    rw [← zipVerdict_accept, hverdict]
    nofun
  have hreject : ∀ xs, ∃ message log, eval (World.exec D.steady) xs w
      (confirmZipUpload D.lib D.limits userId uploadId policy trainingSteps) =
        some (.error (.uploadValidation message),
          { w with objects := w.objects.erase (objectPath userId uploadId), log := log }) := by
    intro xs
    have h := eval_confirmZipUpload D xs policy trainingSteps hobject
    rwa [hverdict] at h
  constructor
  · intro xs _
    obtain ⟨message, log, heval⟩ := hreject xs
    rw [heval]
    rfl
  · intro xs r w' h
    obtain ⟨message, log, heval⟩ := hreject xs
    rw [heval] at h
    obtain ⟨rfl, rfl⟩ := Prod.mk.inj (Option.some.inj h)
    have hholds : ConfirmOutcome.rejected.Holds D userId uploadId policy trainingSteps data w
        (.error (.uploadValidation message))
        { w with objects := w.objects.erase (objectPath userId uploadId), log := log } :=
      ⟨⟨message, rfl⟩, rfl, rfl⟩
    exact ⟨unique_of_holds hholds, iff_of_true hholds hfails⟩

/-- An exception that is not handled leaves the object of a dataset that is not accepted. -/
theorem not_endsClean_of_raise {e : Exc}
    (hverdict : zipVerdict D.lib D.limits policy data = .raise e)
    (hobject : w.objects.get? (objectPath userId uploadId) =
      some (objectPath userId uploadId, data)) :
    ¬ EndsClean D userId uploadId policy trainingSteps data w := by
  have hfails : ¬ DatasetOk D.lib D.limits policy data := by
    rw [← zipVerdict_accept, hverdict]
    nofun
  have hraise := eval_confirmZipUpload D (fun _ => {}) policy trainingSteps hobject
  rw [hverdict] at hraise
  obtain ⟨log, heval⟩ := hraise
  intro hclean
  obtain ⟨-, hiff⟩ := hclean.2 _ _ _ heval
  obtain ⟨-, hobjects, -⟩ := hiff.mpr hfails
  have hgone : w.objects.get? (objectPath userId uploadId) = none := by
    rw [show w.objects = w.objects.erase (objectPath userId uploadId) from hobjects,
      Table.get?_erase, if_pos rfl]
  rw [hobject] at hgone
  cases hgone

end

end ZipOutcomes

open ZipOutcomes

/-- Every stored upload, policy, step count and state of the service: its confirmation ends with
one of the three outcomes if and only if the checks raise only what is handled. -/
theorem confirmation_ends_clean_iff (D : Deployment) (userId uploadId : String)
    (policy : PolicyType) (trainingSteps : ℤ) {data : Bytes} {w : World}
    (hobject : w.objects.get? (objectPath userId uploadId) =
      some (objectPath userId uploadId, data)) :
    EndsClean D userId uploadId policy trainingSteps data w ↔ Handled D.lib D.limits data := by
  have hhandled : Handled D.lib D.limits data ↔
      ∀ e, zipVerdict D.lib D.limits policy data ≠ .raise e := by
    rw [← not_exists, zipVerdict_raise, not_not]
  rw [hhandled]
  cases hverdict : zipVerdict D.lib D.limits policy data with
  | accept => exact iff_of_true (endsClean_of_accept hverdict hobject) nofun
  | reject => exact iff_of_true (endsClean_of_reject hverdict hobject) nofun
  | raise e => exact iff_of_false (not_endsClean_of_raise hverdict hobject) fun h => h e rfl

namespace ZipOutcomes

/-- An upload of the only user. -/
def uploaded (data : Bytes) : World :=
  { World.sample with objects := Table.empty.put (objectPath "user" "upload", data) }

end ZipOutcomes

/-- The document of the archive is an array, so `info.get` raises. -/
theorem confirmation_ends_clean_fails : ¬ ∀ (D : Deployment) (userId uploadId : String)
    (policy : PolicyType) (trainingSteps : ℤ) (data : Bytes) (w : World),
    w.objects.get? (objectPath userId uploadId) = some (objectPath userId uploadId, data) →
    EndsClean D userId uploadId policy trainingSteps data w := by
  intro h
  have hobject : (uploaded [0, 0]).objects.get? (objectPath "user" "upload") =
      some (objectPath "user" "upload", [0, 0]) := Table.get?_put_self _ _
  have hverdict : zipVerdict Deployment.camera.lib Deployment.camera.limits .act [0, 0] =
      .raise (.other "AttributeError" "object has no attribute 'get'") := by rfl
  exact not_endsClean_of_raise hverdict hobject (h .camera _ _ .act 100 _ _ hobject)

theorem confirmation_ends_clean_iff_camera :
    EndsClean .camera "user" "upload" .act 100 [0] (uploaded [0]) ↔
      Handled Deployment.camera.lib Deployment.camera.limits [0] :=
  confirmation_ends_clean_iff .camera "user" "upload" .act 100 (Table.get?_put_self _ _)

end TrainVla
