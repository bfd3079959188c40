import TrainVla.Backend.JobService

/-! Dataset submission: zip uploads that are confirmed, and datasets on the hub. -/
namespace TrainVla.UploadService

open Interaction

def infoJsonPath : String := "meta/info.json"

def uploadUrlExpiresInSeconds : ℤ := 15 * 60

def objectPath (userId uploadId : String) : String := s!"uploads/{userId}/{uploadId}.zip"

/-- The text before the first separator is determined by the whole text. -/
theorem append_cons_inj {α : Type} {a : α} {xs ys us vs : List α} (hxs : a ∉ xs) (hys : a ∉ ys)
    (h : xs ++ a :: us = ys ++ a :: vs) : xs = ys ∧ us = vs := by
  induction xs generalizing ys with
  | nil =>
    cases ys with
    | nil => exact ⟨rfl, (List.cons.inj h).2⟩
    | cons y ys => exact absurd (List.cons.inj h).1 fun heq => hys (heq ▸ List.mem_cons_self ..)
  | cons x xs ih =>
    cases ys with
    | nil => exact absurd (List.cons.inj h).1 fun heq => hxs (heq ▸ List.mem_cons_self ..)
    | cons y ys =>
      obtain ⟨rfl, htail⟩ := List.cons.inj h
      rw [List.mem_cons, not_or] at hxs hys
      obtain ⟨rfl, rfl⟩ := ih hxs.2 hys.2 htail
      exact ⟨rfl, rfl⟩

theorem objectPath_toList (userId uploadId : String) : (objectPath userId uploadId).toList =
    "uploads/".toList ++ (userId.toList ++ '/' :: (uploadId.toList ++ ".zip".toList)) := by
  simp [objectPath, toString]

/-- Users whose identifiers have no slash in them share no path, whatever their upload
identifiers are. -/
theorem objectPath_inj {userId userId' uploadId uploadId' : String} (huser : '/' ∉ userId.toList)
    (huser' : '/' ∉ userId'.toList)
    (h : objectPath userId uploadId = objectPath userId' uploadId') :
    userId = userId' ∧ uploadId = uploadId' := by
  have hlist := congrArg String.toList h
  rw [objectPath_toList, objectPath_toList, List.append_cancel_left_eq] at hlist
  obtain ⟨hu, hid⟩ := append_cons_inj huser huser' hlist
  rw [List.append_cancel_right_eq] at hid
  exact ⟨String.toList_injective hu, String.toList_injective hid⟩

def createUploadTarget (userId : String) (uploadId : Option String) :
    Service (String × String) := do
  let uploadId ← match uploadId with
    | some id => if id = "" then perform .uuid4 else pure id
    | none => perform .uuid4
  let url ← perform (.storageGenerateUploadUrl (objectPath userId uploadId)
    "application/zip" uploadUrlExpiresInSeconds)
  pure (uploadId, url)

/-- Delete the object and raise. -/
def reject {α : Type} (objectPath : String) (errorMessage : Option String) : Service α := do
  perform (.storageDelete objectPath)
  .raise (.uploadValidation (match errorMessage with
    | some m => if m = "" then "Dataset validation failed" else m
    | none => "Dataset validation failed"))

def readZipEntries (lib : Library) (objectPath : String) : Service (List ZipEntryMeta) := do
  let data ← Prog.ofExcept (← perform (.storageOpenReadStream .listing objectPath))
  Prog.ofExcept (lib.zipInfolist data)

/-- The archive is opened anew before the member is read. -/
def readZipMember (lib : Library) (objectPath memberName : String) : Service Bytes := do
  let data ← Prog.ofExcept (← perform (.storageOpenReadStream .member objectPath))
  let _ ← Prog.ofExcept (lib.zipInfolist data)
  Prog.ofExcept (lib.zipRead data memberName)

def readInfoJson (lib : Library) (objectPath : String) : Service Json := do
  let infoBytes ← readZipMember lib objectPath infoJsonPath
  Prog.ofExcept (parseInfoJson lib.jsonLoads infoBytes)

/-- The part of `confirmZipUpload` behind the structure and size checks. -/
def confirmContent (lib : Library) (userId : String) (objectPath : String) (policy : PolicyType)
    (trainingSteps : ℤ) : Service Job := do
  match ← Prog.attempt (readInfoJson lib objectPath) with
  | .error (.key _) => reject objectPath (some s!"Missing required file: {infoJsonPath}")
  | .error (.fileNotFound _) => reject objectPath (some s!"Missing required file: {infoJsonPath}")
  | .error (.invalidInfoJson m) => reject objectPath (some m)
  | .error e => .raise e
  | .ok info =>
    let shapeResult ← Prog.ofExcept (checkPolicyCompatibility info policy)
    if !shapeResult.ok then reject objectPath shapeResult.error
    else JobService.createJob userId policy .zipUpload objectPath trainingSteps

def confirmZipUpload (lib : Library) (limits : ValidationLimits) (userId uploadId : String)
    (policy : PolicyType) (trainingSteps : ℤ) : Service Job := do
  let path := objectPath userId uploadId
  let present ← perform (.storageExists path)
  if !present then .raise (.uploadNotFound path)
  else do
    match ← Prog.attempt (readZipEntries lib path) with
    | .error (.badZipFile _) => reject path (some "Uploaded file is not a valid zip archive")
    | .error e => .raise e
    | .ok entries =>
      let structureResult := checkLerobotStructure (entries.map ZipEntryMeta.name)
      if !structureResult.ok then reject path structureResult.error
      else
        let bombResult := checkDecompressionBomb entries limits
        if !bombResult.ok then reject path bombResult.error
        else confirmContent lib userId path policy trainingSteps

def readRepoInfoJson (lib : Library) (repoId : String) : Service Json := do
  let infoBytes ← Prog.ofExcept (← perform (.hubGetRepoFileBytes repoId infoJsonPath))
  Prog.ofExcept (parseInfoJson lib.jsonLoads infoBytes)

def submitHfDataset (lib : Library) (userId repoId : String) (policy : PolicyType)
    (trainingSteps : ℤ) : Service Job := do
  let present ← perform (.hubRepoExists repoId)
  if !present then
    .raise (.hfDatasetNotFound s!"Hugging Face dataset repo not found: {repoId}")
  else do
    let entryNames ← Prog.ofExcept (← perform (.hubListRepoFiles repoId))
    let structureResult := checkLerobotStructure entryNames
    if !structureResult.ok then
      .raise (.uploadValidation (structureResult.error.getD "None"))
    else do
      match ← Prog.attempt (readRepoInfoJson lib repoId) with
      | .error (.fileNotFound _) =>
        .raise (.uploadValidation s!"Missing required file: {infoJsonPath}")
      | .error (.invalidInfoJson m) => .raise (.uploadValidation m)
      | .error e => .raise e
      | .ok info =>
        let shapeResult ← Prog.ofExcept (checkPolicyCompatibility info policy)
        if !shapeResult.ok then .raise (.uploadValidation (shapeResult.error.getD "None"))
        else JobService.createJob userId policy .hfHub repoId trainingSteps

end TrainVla.UploadService
