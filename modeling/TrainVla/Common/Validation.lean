import TrainVla.Common.Models
import Mathlib.Algebra.Order.BigOperators.Group.List
import Mathlib.Algebra.Ring.Int.Defs

/-! Dataset validation: training steps, archive structure, decompression bombs, and the
input contract of each policy. -/
namespace TrainVla

abbrev Bytes := List UInt8

def startsWith (name front : String) : Bool := front.toList.isPrefixOf name.toList

structure ZipEntryMeta where
  name : String
  uncompressedSize : ℤ

structure ValidationLimits where
  maxTotalUncompressedBytes : ℤ := 2 * 1024 ^ 3
  maxSingleFileBytes : ℤ := 512 * 1024 ^ 2
  maxFileCount : ℤ := 200000

def defaultLimits : ValidationLimits := {}

def requiredMetaFile : String := "meta/info.json"

def requiredDirPrefix : String := "data/"

structure ValidationResult where
  ok : Bool
  error : Option String := none
  deriving DecidableEq

namespace ValidationResult

def success : ValidationResult := { ok := true }

def failure (message : String) : ValidationResult := { ok := false, error := some message }

end ValidationResult

def maxTrainingSteps : ℤ := 20000

def minTrainingSteps : ℤ := 1

def validateTrainingSteps (steps : ℤ) : ValidationResult :=
  if steps < minTrainingSteps then .failure "Training steps must be a positive integer"
  else if steps > maxTrainingSteps then
    .failure s!"Training steps exceeds the maximum of {maxTrainingSteps}"
  else .success

theorem validateTrainingSteps_ok {steps : ℤ} :
    (validateTrainingSteps steps).ok = true ↔ 1 ≤ steps ∧ steps ≤ 20000 := by
  unfold validateTrainingSteps minTrainingSteps maxTrainingSteps
  split
  · simp only [ValidationResult.failure, Bool.false_eq_true, false_iff]
    omega
  · split
    · simp only [ValidationResult.failure, Bool.false_eq_true, false_iff]
      omega
    · simp only [ValidationResult.success, true_iff]
      omega

def checkLerobotStructure (entryNames : List String) : ValidationResult :=
  if requiredMetaFile ∉ entryNames then .failure s!"Missing required file: {requiredMetaFile}"
  else if !entryNames.any fun name => startsWith name requiredDirPrefix then
    .failure s!"Missing required directory: {requiredDirPrefix}"
  else .success

theorem checkLerobotStructure_ok {entryNames : List String} :
    (checkLerobotStructure entryNames).ok = true ↔
      requiredMetaFile ∈ entryNames ∧
        ∃ name ∈ entryNames, startsWith name requiredDirPrefix = true := by
  unfold checkLerobotStructure
  split
  · rename_i hmeta
    simp only [ValidationResult.failure, Bool.false_eq_true, false_iff, not_and]
    intro hmem
    exact absurd hmem hmeta
  · rename_i hmeta
    rw [not_not] at hmeta
    split
    · rename_i hdir
      simp_all [ValidationResult.failure]
    · rename_i hdir
      simp_all [ValidationResult.success]

/-- The loop of `checkDecompressionBomb`, with the size accumulated so far. -/
def checkEntrySizes (limits : ValidationLimits) (totalSize : ℤ) :
    List ZipEntryMeta → ValidationResult
  | [] => .success
  | entry :: entries =>
    if entry.uncompressedSize > limits.maxSingleFileBytes then
      .failure (s!"File '{entry.name}' exceeds the per-file size limit " ++
        s!"({entry.uncompressedSize} > {limits.maxSingleFileBytes} bytes)")
    else
      let totalSize := totalSize + entry.uncompressedSize
      if totalSize > limits.maxTotalUncompressedBytes then
        .failure ("Uncompressed archive exceeds the total size limit " ++
          s!"({totalSize} > {limits.maxTotalUncompressedBytes} bytes)")
      else checkEntrySizes limits totalSize entries

/-- The running total passes the limit at some entry if and only if the whole does, since no
size is negative. -/
theorem checkEntrySizes_ok {limits : ValidationLimits} {totalSize : ℤ}
    {entries : List ZipEntryMeta} (hsizes : ∀ entry ∈ entries, 0 ≤ entry.uncompressedSize)
    (htotal : entries ≠ [] ∨ totalSize ≤ limits.maxTotalUncompressedBytes) :
    (checkEntrySizes limits totalSize entries).ok = true ↔
      (∀ entry ∈ entries, entry.uncompressedSize ≤ limits.maxSingleFileBytes) ∧
        totalSize + (entries.map ZipEntryMeta.uncompressedSize).sum ≤
          limits.maxTotalUncompressedBytes := by
  induction entries generalizing totalSize with
  | nil => simpa [checkEntrySizes, ValidationResult.success] using htotal
  | cons entry entries ih =>
    have hrest : 0 ≤ (entries.map ZipEntryMeta.uncompressedSize).sum := by
      refine List.sum_nonneg fun size hsize => ?_
      obtain ⟨other, hother, rfl⟩ := List.mem_map.mp hsize
      exact hsizes other (List.mem_cons_of_mem _ hother)
    rw [List.forall_mem_cons, List.map_cons, List.sum_cons, checkEntrySizes]
    split
    · rename_i hlarge
      refine iff_of_false nofun fun hall => ?_
      omega
    · rename_i hlarge
      dsimp only
      split
      · rename_i hover
        refine iff_of_false nofun fun hall => ?_
        omega
      · rename_i hover
        rw [ih (fun other hother => hsizes other (List.mem_cons_of_mem _ hother)) (.inr (by omega))]
        constructor
        · rintro ⟨hsingle, hsum⟩
          exact ⟨⟨by omega, hsingle⟩, by omega⟩
        · rintro ⟨⟨-, hsingle⟩, hsum⟩
          exact ⟨hsingle, by omega⟩

def checkDecompressionBomb (entries : List ZipEntryMeta)
    (limits : ValidationLimits := defaultLimits) : ValidationResult :=
  if (entries.length : ℤ) > limits.maxFileCount then
    .failure s!"Archive contains too many files ({entries.length} > {limits.maxFileCount})"
  else checkEntrySizes limits 0 entries

/-- An empty archive has no entry at which a negative limit would be passed. -/
theorem checkDecompressionBomb_ok {limits : ValidationLimits} {entries : List ZipEntryMeta}
    (hsizes : ∀ entry ∈ entries, 0 ≤ entry.uncompressedSize)
    (htotal : entries ≠ [] ∨ 0 ≤ limits.maxTotalUncompressedBytes) :
    (checkDecompressionBomb entries limits).ok = true ↔
      (entries.length : ℤ) ≤ limits.maxFileCount ∧
        (∀ entry ∈ entries, entry.uncompressedSize ≤ limits.maxSingleFileBytes) ∧
        (entries.map ZipEntryMeta.uncompressedSize).sum ≤ limits.maxTotalUncompressedBytes := by
  unfold checkDecompressionBomb
  by_cases hcount : (entries.length : ℤ) > limits.maxFileCount
  · rw [if_pos hcount]
    apply iff_of_false Bool.false_ne_true
    intro hall
    omega
  · rw [if_neg hcount, checkEntrySizes_ok hsizes htotal, zero_add]
    constructor
    · intro hall
      exact ⟨by omega, hall⟩
    · exact fun hall => hall.2

structure PolicyRequirement where
  requiredFeatures : List String
  requiresVisualFeature : Bool
  requiresVisualOrEnvState : Bool := false

def policyRequirements : PolicyType → PolicyRequirement
  | .act =>
    { requiredFeatures := ["observation.state", "action"]
      requiresVisualFeature := false
      requiresVisualOrEnvState := true }
  | .smolvla =>
    { requiredFeatures := ["observation.state", "action"]
      requiresVisualFeature := true }

def visualFeaturePrefixes : List String := ["observation.image", "observation.images"]

def envStateFeature : String := "observation.environment_state"

def hasVisualFeature (features : List (String × Json)) : Bool :=
  features.any fun feature => visualFeaturePrefixes.any fun front => startsWith feature.1 front

/-- `meta/info.json` from the bytes of the file, `loads` being `json.loads`. -/
def parseInfoJson (loads : Bytes → Except Exc Json) (raw : Bytes) : Except Exc Json :=
  match loads raw with
  | .ok info => .ok info
  | .error (.unicodeDecode m) =>
    .error (.invalidInfoJson s!"meta/info.json is not valid JSON: {m}")
  | .error (.jsonDecode m) =>
    .error (.invalidInfoJson s!"meta/info.json is not valid JSON: {m}")
  | .error e => .error e

def hasFeature (features : List (String × Json)) (name : String) : Bool :=
  features.any fun feature => feature.1 == name

/-- The checks on a `features` map. -/
def checkFeatures (features : List (String × Json)) (policy : PolicyType) : ValidationResult :=
  let requirement := policyRequirements policy
  match requirement.requiredFeatures.find? fun name => !hasFeature features name with
  | some name =>
    .failure s!"Dataset is missing feature '{name}' required by policy '{policy.value}'"
  | none =>
    if requirement.requiresVisualFeature && !hasVisualFeature features then
      .failure s!"Policy '{policy.value}' requires at least one visual observation feature"
    else if requirement.requiresVisualOrEnvState && (!hasVisualFeature features &&
        !hasFeature features envStateFeature) then
      .failure (s!"Policy '{policy.value}' requires at least one visual observation feature " ++
        s!"or the '{envStateFeature}' feature")
    else .success

/-- `info.get` raises unless the document is an object. -/
def checkPolicyCompatibility (info : Json) (policy : PolicyType) : Except Exc ValidationResult :=
  match info with
  | .obj items =>
    match (Json.item? "features" items).getD (.obj []) with
    | .obj features => .ok (checkFeatures features policy)
    | _ => .ok (.failure "meta/info.json is missing a valid 'features' map")
  | _ => .error (.other "AttributeError" "object has no attribute 'get'")

end TrainVla
