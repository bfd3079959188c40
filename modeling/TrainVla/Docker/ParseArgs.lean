import TrainVla.Python.Argparse
import TrainVla.Worker.JobPoller

/-! The command line of a training container, as the worker writes it and as the entrypoints read
it. -/
namespace TrainVla

open Python.Argparse

/-- The namespace that the parser of an entrypoint fills in. -/
structure EntrypointArgs where
  sourceType : Option String := none
  sourceRef : Option String := none
  trainingSteps : Option ℤ := none
  inputDir : Option String := none
  outputDir : Option String := none

namespace TrainEntrypoint

def sourceTypeChoices : List String := ["hf_hub", "zip_upload"]

def takeOption (option value : String) (args : EntrypointArgs) : Option EntrypointArgs :=
  match option with
  | "--source-type" =>
    if value ∈ sourceTypeChoices then some { args with sourceType := some value } else none
  | "--source-ref" => some { args with sourceRef := some value }
  | "--training-steps" =>
    (Python.int? value).map fun steps => { args with trainingSteps := some steps }
  | "--input-dir" => some { args with inputDir := some value }
  | "--output-dir" => some { args with outputDir := some value }
  | _ => none

def missingOptions (args : EntrypointArgs) : List String :=
  (if args.sourceType.isNone then ["--source-type"] else []) ++
    (if args.sourceRef.isNone then ["--source-ref"] else []) ++
    (if args.trainingSteps.isNone then ["--training-steps"] else []) ++
    (if args.inputDir.isNone then ["--input-dir"] else []) ++
    if args.outputDir.isNone then ["--output-dir"] else []

def parser : Parser EntrypointArgs where
  options := ["--source-type", "--source-ref", "--training-steps", "--input-dir", "--output-dir"]
  long := by decide
  take := takeOption
  missing := missingOptions

def parseArgs (argv : List String) : Except Exit EntrypointArgs :=
  Python.Argparse.parseArgs parser {} argv

end TrainEntrypoint

namespace ActEntrypoint

def parseArgs : List String → Except Exit EntrypointArgs := TrainEntrypoint.parseArgs

end ActEntrypoint

namespace SmolvlaEntrypoint

def parseArgs : List String → Except Exit EntrypointArgs := TrainEntrypoint.parseArgs

end SmolvlaEntrypoint

/-- `parse_args` of the entrypoint in the image of the policy. -/
def PolicyType.parseArgs : PolicyType → List String → Except Exit EntrypointArgs
  | act => ActEntrypoint.parseArgs
  | smolvla => SmolvlaEntrypoint.parseArgs

/-- What the parameters of a job are to an entrypoint. -/
def Job.entrypointArgs (job : Job) : EntrypointArgs where
  sourceType := some job.sourceType.value
  sourceRef := some job.sourceRef
  trainingSteps := some job.trainingSteps
  inputDir := some "/workspace/input"
  outputDir := some "/workspace/output"

/-- The reference does not look like an option. -/
def PlainRef (sourceRef : String) : Prop := Plain TrainEntrypoint.parser.options sourceRef

namespace TrainEntrypoint

variable (job : Job)

def commandValues : List (String × String) :=
  [("--source-type", job.sourceType.value), ("--source-ref", job.sourceRef),
    ("--training-steps", toString job.trainingSteps), ("--input-dir", "/workspace/input"),
    ("--output-dir", "/workspace/output")]

theorem command_eq_render (settings : WorkerSettings) (jobDir : String)
    (dataset : DatasetFetcher.FetchedDataset) :
    (JobPoller.buildContainerSpec settings job jobDir dataset).command =
      render (commandValues job) := rfl

theorem mem_options_of_mem : ∀ entry ∈ commandValues job, entry.1 ∈ parser.options := by
  simp [commandValues, parser]

theorem plain_values (hsteps : 0 ≤ job.trainingSteps) (hplain : PlainRef job.sourceRef) :
    ∀ entry ∈ commandValues job, Plain parser.options entry.2 := by
  have htype : Plain parser.options job.sourceType.value := by
    apply plain_of_head?
    cases job.sourceType <;> decide
  have hnumber : Plain parser.options (toString job.trainingSteps) := by
    obtain ⟨n, hn⟩ := Int.eq_ofNat_of_zero_le hsteps
    rw [hn]
    apply plain_of_head?
    have htext : (toString (n : ℤ)).toList = Nat.toDigits 10 n := Nat.toList_repr
    rw [htext]
    intro hhead
    have hdigit := Python.isDigit_of_mem (List.mem_of_mem_head? hhead)
    cases hdigit
  have hinput : Plain parser.options "/workspace/input" := plain_of_head? (by decide)
  have houtput : Plain parser.options "/workspace/output" := plain_of_head? (by decide)
  unfold commandValues
  simp only [List.forall_mem_cons, List.not_mem_nil, false_imp_iff, implies_true, and_true]
  exact ⟨htype, hplain, hnumber, hinput, houtput⟩

theorem storeAll_values (hsteps : Python.Short job.trainingSteps.natAbs) :
    storeAll parser {} (commandValues job) = .ok job.entrypointArgs := by
  have htype : parser.take "--source-type" job.sourceType.value {} =
      some { sourceType := some job.sourceType.value } := by
    cases job.sourceType <;> rfl
  have hnumber : ∀ args : EntrypointArgs, parser.take "--training-steps"
      (toString job.trainingSteps) args = some { args with trainingSteps := some job.trainingSteps } := by
    intro args
    show (Python.int? (toString job.trainingSteps)).map _ = _
    rw [Python.int?_toString hsteps]
    rfl
  apply (storeAll_cons htype).trans
  apply (storeAll_cons rfl).trans
  apply (storeAll_cons (hnumber _)).trans
  apply (storeAll_cons rfl).trans
  exact storeAll_cons rfl

/-- The command line comes out as the job went in, unless its reference looks like an option. -/
theorem parseArgs_command (hsteps : 0 ≤ job.trainingSteps)
    (hfits : Python.Short job.trainingSteps.natAbs) (hplain : PlainRef job.sourceRef) :
    parseArgs (render (commandValues job)) = .ok job.entrypointArgs :=
  parseArgs_render (mem_options_of_mem job) (plain_values job hsteps hplain)
    (storeAll_values job hfits) rfl

theorem parseArgs_command_of_not_plain (hplain : ¬ PlainRef job.sourceRef) :
    ∃ error, parseArgs (render (commandValues job)) = .error (.usage error) := by
  apply parseArgs_of_not_plain (mem_options_of_mem job)
  exact ⟨_, List.mem_cons_of_mem _ List.mem_cons_self, hplain⟩

end TrainEntrypoint

end TrainVla
