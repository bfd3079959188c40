import TrainVla.Docker.TrainEntrypoint
import TrainVla.Worker.Settings
import TrainVla.Files.Replace
import TrainVla.Python.JsonRoundTrip
import TrainVla.Calendar.DateTime

/-! The progress file: how the container writes it, and how the worker reads it. -/
namespace TrainVla

open Python.JsonText

/-- A call of `write_progress`, with the time that it reads. -/
structure ProgressReport where
  write : ProgressWrite
  timestamp : ℤ

namespace TrainEntrypoint

/-- The microseconds from the first day of year 1. -/
def sinceYearOne (t : ℤ) : ℕ := (t + 719162 * Calendar.microsPerDay).toNat

/-- `datetime.isoformat` of an instant of UTC. -/
def isoformat (t : ℤ) : List Char := Calendar.dateTimeText (sinceYearOne t)

def progress (report : ProgressReport) : Value PyFloat :=
  .obj [("step".toList, .int report.write.step), ("total_steps".toList, .int report.write.totalSteps),
    ("loss".toList, .float report.write.loss), ("timestamp".toList, .str (isoformat report.timestamp))]

def tmpFilename : String := "progress.json.tmp"

def progressFilename : String := "progress.json"

/-- The text is ASCII, so that a character is a byte. -/
def progressText (P : Floats PyFloat) (report : ProgressReport) : List Char :=
  (progress report).dumps P

def writeProgress (P : Floats PyFloat) (report : ProgressReport) : Files.FileProg String Char Unit :=
  Files.replaceFile tmpFilename progressFilename (progressText P report)

end TrainEntrypoint

namespace Json

mutual

/-- The dictionaries and lists that a text stands for. -/
def ofValue : Value PyFloat → Json
  | .null => .null
  | .bool b => .bool b
  | .int n => .int n
  | .float x => .float x
  | .str s => .str (String.ofList s)
  | .arr items => .arr (ofValues items)
  | .obj items => .obj (ofItems items)

def ofValues : List (Value PyFloat) → List Json
  | [] => []
  | v :: items => ofValue v :: ofValues items

def ofItems : List (List Char × Value PyFloat) → List (String × Json)
  | [] => []
  | (key, v) :: items => (String.ofList key, ofValue v) :: ofItems items

end

end Json

namespace ProgressReader

def progressFilename : String := "progress.json"

/-- What `json.loads` makes of the text of the file. -/
def parse (P : Floats PyFloat) (text : List Char) : ProgressFile :=
  match loads P text with
  | some v => .json (Json.ofValue v)
  | none => .malformed

/-- `read_progress`, after the file was read. -/
def readText (lib : Library) (P : Floats PyFloat) (text : Option (List Char)) :
    Except Exc (Option Progress) :=
  readProgress lib (text.map (parse P))

end ProgressReader

/-- The directory that the container and the worker share. -/
def progressDir (P : Floats PyFloat) :
    Interaction.Machine (Files.Party ProgressReport) (Files.FileCall String Char)
      Files.FileCall.Resp Files.FileError (Files.Disk String Char) ℕ Empty :=
  Files.directory TrainEntrypoint.tmpFilename ProgressReader.progressFilename
    (TrainEntrypoint.progressText P)

section

variable {P : Floats PyFloat} {lib : Library} {report : ProgressReport}

/-- What the worker gets from a report. -/
def ProgressReport.progress (report : ProgressReport) : Progress :=
  { step := .int report.write.step, totalSteps := .int report.write.totalSteps,
    loss := .float report.write.loss, updatedAt := report.timestamp }

/-- What the container does in that directory is `write_progress`. -/
theorem code_write (report : ProgressReport) :
    (progressDir P).code (.write report) = TrainEntrypoint.writeProgress P report := rfl

/-- A report that Python can write and read. -/
structure ProgressReport.Writable (lib : Library) (P : Floats PyFloat) (report : ProgressReport) :
    Prop where
  step : Python.Short report.write.step
  totalSteps : Python.Short report.write.totalSteps
  loss : P.Reads report.write.loss
  timestamp : lib.fromIsoformat (String.ofList (TrainEntrypoint.isoformat report.timestamp)) =
    some report.timestamp

theorem sound_progress (h : report.Writable lib P) : (TrainEntrypoint.progress report).Sound P := by
  have hkeys : ["step".toList, "total_steps".toList, "loss".toList, "timestamp".toList].Nodup := by
    decide
  refine .obj hkeys fun item hmem => ?_
  simp only [List.mem_cons, List.not_mem_nil, or_false] at hmem
  rcases hmem with rfl | rfl | rfl | rfl
  · exact .int h.step
  · exact .int h.totalSteps
  · exact .float h.loss
  · exact .str _

/-- What is written is read again. -/
theorem readText_progressText (h : report.Writable lib P) :
    ProgressReader.readText lib P (some (TrainEntrypoint.progressText P report)) =
      .ok (some report.progress) := by
  have hloads := loads_dumps (sound_progress h)
  have hparse : ProgressReader.parse P (TrainEntrypoint.progressText P report) =
      .json (Json.ofValue (TrainEntrypoint.progress report)) := by
    unfold ProgressReader.parse TrainEntrypoint.progressText
    rw [hloads]
  unfold ProgressReader.readText
  rw [Option.map_some, hparse]
  simp [TrainEntrypoint.progress, Json.ofValue, Json.ofItems, ProgressReader.readProgress,
    ProgressReader.progressOf, Json.item?, List.lookup_cons, h.timestamp, ProgressReport.progress]

end

end TrainVla
