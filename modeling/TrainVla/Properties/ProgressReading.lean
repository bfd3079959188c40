import TrainVla.Properties.Finalization

/-! What reading a progress file makes of its content. -/
namespace TrainVla

/-- The value that a content stands for, whether `json.loads` accepts it or not. -/
def ProgressFile.value? : ProgressFile → Option Json
  | json value => some value
  | longInteger value => some value
  | _ => none

/-- The content is an object with the four keys, and these are their values. -/
def Describes (lib : Library) (content : ProgressFile) (progress : Progress) : Prop :=
  ∃ items timestamp, content.value? = some (.obj items) ∧
    Json.item? "step" items = some progress.step ∧
    Json.item? "total_steps" items = some progress.totalSteps ∧
    Json.item? "loss" items = some progress.loss ∧
    Json.item? "timestamp" items = some (.str timestamp) ∧
    lib.fromIsoformat timestamp = some progress.updatedAt

/-- The reader returns the progress that the content describes, or nothing if it describes none. -/
def ReadsWhatIsDescribed (lib : Library) (content : ProgressFile) : Prop :=
  ∃ result, ProgressReader.readProgress lib (some content) = .ok result ∧
    ∀ progress, result = some progress ↔ Describes lib content progress

namespace ProgressReading

variable {lib : Library} {content : ProgressFile} {progress : Progress}
  {items : List (String × Json)} {result : Option Progress}

theorem describes_iff : Describes lib (.json (.obj items)) progress ↔
    ∃ timestamp, Json.item? "step" items = some progress.step ∧
      Json.item? "total_steps" items = some progress.totalSteps ∧
      Json.item? "loss" items = some progress.loss ∧
      Json.item? "timestamp" items = some (.str timestamp) ∧
      lib.fromIsoformat timestamp = some progress.updatedAt := by
  constructor
  · rintro ⟨_, timestamp, hcontent, h⟩
    cases hcontent
    exact ⟨timestamp, h⟩
  · rintro ⟨timestamp, h⟩
    exact ⟨items, timestamp, rfl, h⟩

/-- Only an object describes a progress. -/
theorem not_describes (h : content.value? = none) : ¬ Describes lib content progress := by
  rintro ⟨items, _, hcontent, -⟩
  rw [h] at hcontent
  cases hcontent

theorem progressOf_eq_some_iff
    (h : ProgressReader.progressOf lib.fromIsoformat items = .ok result) :
    result = some progress ↔ Describes lib (.json (.obj items)) progress := by
  rw [describes_iff]
  unfold ProgressReader.progressOf at h
  cases hstep : Json.item? "step" items with
  | none =>
    rw [hstep] at h
    cases h
    simp
  | some step =>
    cases htotal : Json.item? "total_steps" items with
    | none =>
      rw [hstep, htotal] at h
      cases h
      simp
    | some totalSteps =>
      cases hloss : Json.item? "loss" items with
      | none =>
        rw [hstep, htotal, hloss] at h
        cases h
        simp
      | some loss =>
        cases htime : Json.item? "timestamp" items with
        | none =>
          rw [hstep, htotal, hloss, htime] at h
          cases h
          simp
        | some timestamp =>
          rw [hstep, htotal, hloss, htime] at h
          cases timestamp with
          | str text =>
            obtain rfl := Except.ok.inj h
            cases progress
            cases hparsed : lib.fromIsoformat text with
            | none => simp [hparsed]
            | some updatedAt => simp [hparsed]
          | _ => cases h

/-- What is read is what is described, unless an integer was too long. -/
theorem readProgress_eq_some_iff
    (h : ProgressReader.readProgress lib (some content) = .ok result)
    (hshort : ∀ value, content = .longInteger value → ¬ Describes lib content progress) :
    result = some progress ↔ Describes lib content progress := by
  cases content with
  | undecodable =>
    cases h
    exact iff_of_false (by simp) (not_describes rfl)
  | malformed =>
    cases h
    exact iff_of_false (by simp) (not_describes rfl)
  | tooDeep => cases h
  | longInteger value =>
    cases h
    simp [hshort value rfl]
  | json value =>
    cases value with
    | obj items => exact progressOf_eq_some_iff h
    | _ => cases h

end ProgressReading

/-- The reader does what it says exactly when the content has a shape that it is prepared for, and
no progress is lost to an integer that is too long. -/
theorem progress_reading_iff (lib : Library) (content : ProgressFile) :
    ReadsWhatIsDescribed lib content ↔ Legible (some content) ∧
      ∀ value, content = .longInteger value → ∀ progress, ¬ Describes lib content progress := by
  rw [← Finalization.readProgress_ok_iff lib]
  constructor
  · rintro ⟨result, hread, hiff⟩
    refine ⟨⟨result, hread⟩, ?_⟩
    rintro value rfl progress hdescribes
    obtain rfl : none = result := Except.ok.inj hread
    have hsome : none = some progress := (hiff progress).mpr hdescribes
    cases hsome
  · rintro ⟨⟨result, hread⟩, hshort⟩
    refine ⟨result, hread, fun progress => ?_⟩
    exact ProgressReading.readProgress_eq_some_iff hread fun value heq => hshort value heq progress

/-- An empty array. -/
theorem progress_reading_fails : ¬ ∀ (lib : Library) (content : ProgressFile),
    ReadsWhatIsDescribed lib content := by
  intro h
  obtain ⟨result, hread, -⟩ := h Deployment.sample.lib (.json (.arr []))
  cases hread

end TrainVla
