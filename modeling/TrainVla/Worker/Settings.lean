import TrainVla.World.Service

/-! Worker settings, and the reading of a progress file. -/
namespace TrainVla

structure WorkerSettings where
  hfCacheDir : String := "/var/lib/lerobot-worker/hf-cache"
  hfCacheMaxBytes : ℤ := 20 * 1024 ^ 3
  workdir : String := "/var/lib/lerobot-worker/jobs"
  tmpStaleAfterSeconds : ℤ := 60 * 60
  actImage : String := "lerobot-train-act:latest"
  smolvlaImage : String := "lerobot-train-smolvla:latest"
  useGpu : Bool := true
  uploadRetries : ℕ := 2

/-- An identifier that is set and not empty, which is what `if job.container_id` asks. -/
def Job.container? (job : Job) : Option String := job.containerId.filter fun id => id ≠ ""

theorem Job.container?_eq_some {job : Job} {id : String} :
    job.container? = some id ↔ job.containerId = some id ∧ id ≠ "" := by
  simp [Job.container?, Option.filter_eq_some_iff]

namespace ProgressReader

/-- The fields are read in order, so a missing key goes before a timestamp of a wrong type. -/
def progressOf (fromIsoformat : String → Option ℤ) (items : List (String × Json)) :
    Except Exc (Option Progress) :=
  match Json.item? "step" items, Json.item? "total_steps" items, Json.item? "loss" items,
    Json.item? "timestamp" items with
  | some step, some totalSteps, some loss, some timestamp =>
    match timestamp with
    | .str text => .ok ((fromIsoformat text).map fun updatedAt =>
        { step, totalSteps, loss, updatedAt })
    | _ => .error (.other "TypeError" "fromisoformat: argument must be str")
  | _, _, _, _ => .ok none

/-- `read_progress` after the file was read: a missing or malformed file is no progress, and neither
is one with an integer that is too long, which raises a `ValueError` as well. Nesting that is too deep
raises something else, and so does indexing anything but an object. -/
def readProgress (lib : Library) : Option ProgressFile → Except Exc (Option Progress)
  | none => .ok none
  | some .undecodable => .ok none
  | some .malformed => .ok none
  | some (.longInteger _) => .ok none
  | some .tooDeep => .error (.other "RecursionError" "maximum recursion depth exceeded")
  | some (.json (.obj items)) => progressOf lib.fromIsoformat items
  | some (.json _) => .error (.other "TypeError" "value cannot be indexed with a key")

end ProgressReader

end TrainVla
