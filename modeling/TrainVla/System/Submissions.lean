import TrainVla.Interaction.Evaluation
import TrainVla.System.Operations
import Mathlib.Data.Fintype.EquivFin

/-! Both ways to submit a dataset, in terms of what the checks of the dataset come to. -/
namespace TrainVla

open Interaction Store UploadService

/-- What the checks of a dataset come to. `raise` is an exception that no handler names. -/
inductive Verdict
  | accept
  | reject
  | raise (e : Exc)

/-- The last check, on what was read from `meta/info.json`. -/
def infoVerdict (policy : PolicyType) : Except Exc Json → Verdict
  | .error (.key _) | .error (.fileNotFound _) | .error (.invalidInfoJson _) => .reject
  | .error e => .raise e
  | .ok info =>
    match checkPolicyCompatibility info policy with
    | .error e => .raise e
    | .ok shapeResult => if shapeResult.ok then .accept else .reject

/-- What an archive has in `meta/info.json`. -/
def archivedInfo (lib : Library) (data : Bytes) : Except Exc Json := do
  let infoBytes ← lib.zipRead data infoJsonPath
  parseInfoJson lib.jsonLoads infoBytes

/-- What a confirmation makes of an uploaded archive. -/
def zipVerdict (lib : Library) (limits : ValidationLimits) (policy : PolicyType) (data : Bytes) :
    Verdict :=
  match lib.zipInfolist data with
  | .error (.badZipFile _) => .reject
  | .error e => .raise e
  | .ok entries =>
    if !(checkLerobotStructure (entries.map ZipEntryMeta.name)).ok then .reject
    else if !(checkDecompressionBomb entries limits).ok then .reject
    else infoVerdict policy (archivedInfo lib data)

/-- What a submission makes of a dataset on the hub. -/
def hubVerdict (lib : Library) (policy : PolicyType) (files : List (String × Bytes)) : Verdict :=
  if !(checkLerobotStructure (files.map Prod.fst)).ok then .reject
  else
    match files.lookup infoJsonPath with
    | none => .reject
    | some content => infoVerdict policy (parseInfoJson lib.jsonLoads content)

/-- A JSON object that describes the features which the policy needs. -/
def Suitable (policy : PolicyType) (info : Json) : Prop :=
  ∃ items features, info = .obj items ∧ Json.item? "features" items = some (.obj features) ∧
    (checkFeatures features policy).ok = true

/-- All checks pass. -/
def DatasetOk (lib : Library) (limits : ValidationLimits) (policy : PolicyType) (data : Bytes) :
    Prop :=
  ∃ entries info, lib.zipInfolist data = .ok entries ∧
    (checkLerobotStructure (entries.map ZipEntryMeta.name)).ok = true ∧
    (checkDecompressionBomb entries limits).ok = true ∧
    archivedInfo lib data = .ok info ∧ Suitable policy info

section

variable {policy : PolicyType} {info : Json}

theorem checkFeatures_nil : (checkFeatures [] policy).ok = false := by
  cases policy <;> rfl

/-- A document that is no object raises, one that is not suitable fails. -/
theorem checkPolicyCompatibility_suitable (h : Suitable policy info) :
    ∃ result, checkPolicyCompatibility info policy = .ok result ∧ result.ok = true := by
  obtain ⟨items, features, rfl, hitem, hok⟩ := h
  refine ⟨checkFeatures features policy, ?_, hok⟩
  simp [checkPolicyCompatibility, hitem]

theorem suitable_of_checkPolicyCompatibility {result : ValidationResult}
    (h : checkPolicyCompatibility info policy = .ok result) (hok : result.ok = true) :
    Suitable policy info := by
  unfold checkPolicyCompatibility at h
  split at h
  · rename_i items
    split at h
    · rename_i features hitem
      obtain rfl := Except.ok.inj h
      cases hget : Json.item? "features" items with
      | none =>
        rw [hget] at hitem
        obtain rfl := Json.obj.inj hitem
        rw [checkFeatures_nil] at hok
        cases hok
      | some value =>
        rw [hget] at hitem
        obtain rfl : value = .obj features := hitem
        exact ⟨items, features, rfl, hget, hok⟩
    · obtain rfl := Except.ok.inj h
      cases hok
  · cases h

theorem checkPolicyCompatibility_obj (policy : PolicyType) (items : List (String × Json)) :
    ∃ result, checkPolicyCompatibility (.obj items) policy = .ok result := by
  unfold checkPolicyCompatibility
  dsimp only
  split <;> exact ⟨_, rfl⟩

theorem infoVerdict_accept {read : Except Exc Json} :
    infoVerdict policy read = .accept ↔ ∃ info, read = .ok info ∧ Suitable policy info := by
  constructor
  · intro h
    unfold infoVerdict at h
    split at h
    · cases h
    · cases h
    · cases h
    · cases h
    · rename_i info
      split at h
      · cases h
      · rename_i shapeResult hshape
        split at h
        · rename_i hok
          exact ⟨info, rfl, suitable_of_checkPolicyCompatibility hshape hok⟩
        · cases h
  · rintro ⟨info, rfl, hinfo⟩
    obtain ⟨result, hresult, hok⟩ := checkPolicyCompatibility_suitable hinfo
    simp [infoVerdict, hresult, hok]

/-- Nothing that an object contains raises. -/
theorem infoVerdict_obj (policy : PolicyType) (items : List (String × Json)) :
    infoVerdict policy (.ok (.obj items)) = .accept ∨
      infoVerdict policy (.ok (.obj items)) = .reject := by
  obtain ⟨result, hresult⟩ := checkPolicyCompatibility_obj policy items
  unfold infoVerdict
  dsimp only
  rw [hresult]
  by_cases hok : result.ok = true
  · exact .inl (if_pos hok)
  · exact .inr (if_neg hok)

end

section

variable {lib : Library} {limits : ValidationLimits} {policy : PolicyType} {data : Bytes}

theorem zipVerdict_accept :
    zipVerdict lib limits policy data = .accept ↔ DatasetOk lib limits policy data := by
  constructor
  · intro h
    unfold zipVerdict at h
    split at h
    · cases h
    · cases h
    · rename_i entries hentries
      split at h
      · cases h
      · rename_i hstructure
        split at h
        · cases h
        · rename_i hbomb
          obtain ⟨info, hread, hinfo⟩ := infoVerdict_accept.mp h
          exact ⟨entries, info, hentries, by simpa using hstructure, by simpa using hbomb, hread, hinfo⟩
  · rintro ⟨entries, info, hentries, hstructure, hbomb, hread, hinfo⟩
    simp only [zipVerdict, hentries, hstructure, hbomb, Bool.not_true, Bool.false_eq_true, if_false]
    exact infoVerdict_accept.mpr ⟨info, hread, hinfo⟩

end

/-- `json.loads` raises when a text is not JSON or not Unicode, or else what no handler names. -/
def Library.LoadsRaise (lib : Library) : Prop :=
  ∀ raw e, lib.jsonLoads raw = .error e →
    (∃ m, e = .unicodeDecode m) ∨ (∃ m, e = .jsonDecode m) ∨ ∃ name m, e = .other name m

theorem mem_of_structure {names : List String} (h : (checkLerobotStructure names).ok = true) :
    infoJsonPath ∈ names := by
  unfold checkLerobotStructure at h
  split at h
  · cases h
  · rename_i hmem
    exact not_not.mp hmem

theorem lookup_of_structure {files : List (String × Bytes)}
    (h : (checkLerobotStructure (files.map Prod.fst)).ok = true) :
    ∃ content, files.lookup infoJsonPath = some content := by
  obtain ⟨file, hfile, hname⟩ := List.mem_map.mp (mem_of_structure h)
  cases hlookup : files.lookup infoJsonPath with
  | some content => exact ⟨content, rfl⟩
  | none =>
    rw [List.lookup_eq_none_iff] at hlookup
    have := hlookup file hfile
    simp [hname] at this

theorem parseInfoJson_raises {lib : Library} (hjson : lib.LoadsRaise) {raw : Bytes} {e : Exc}
    (h : parseInfoJson lib.jsonLoads raw = .error e) :
    (∃ m, e = .invalidInfoJson m) ∨ ∃ name m, e = .other name m := by
  unfold parseInfoJson at h
  split at h
  · cases h
  · exact .inl ⟨_, (Except.error.inj h).symm⟩
  · exact .inl ⟨_, (Except.error.inj h).symm⟩
  · rename_i e' hunicode hdecode hload
    obtain rfl := Except.error.inj h
    rcases hjson raw e' hload with ⟨m, rfl⟩ | ⟨m, rfl⟩ | hother
    · exact absurd rfl (hunicode m)
    · exact absurd rfl (hdecode m)
    · exact .inr hother

/-- Why `create_job` refuses a job, if it does. -/
def refusal (w : World) (userId : String) (trainingSteps today : ℤ) : Option Exc :=
  let stepsResult := validateTrainingSteps trainingSteps
  if !stepsResult.ok then some (.invalidTrainingSteps stepsResult.error)
  else
    match w.users.get? userId with
    | none => some (.userNotFound userId)
    | some user =>
      let quotaResult := canCreateJob user (w.jobs.listForUser userId) today
      if !quotaResult.allowed then some (.quotaExceeded quotaResult.reason) else none

/-- The three exceptions of `create_job`. -/
def Exc.Refuses : Exc → Prop
  | invalidTrainingSteps _ | userNotFound _ | quotaExceeded _ => True
  | _ => False

theorem refuses_of_refusal {w : World} {userId : String} {trainingSteps today : ℤ} {e : Exc}
    (h : refusal w userId trainingSteps today = some e) : e.Refuses := by
  unfold refusal at h
  dsimp only at h
  split at h
  · obtain rfl := Option.some.inj h
    trivial
  · split at h
    · obtain rfl := Option.some.inj h
      trivial
    · split at h
      · obtain rfl := Option.some.inj h
        trivial
      · cases h

/-- A queued job with nothing but what was asked for. -/
def Job.Fresh (job : Job) (userId : String) (policy : PolicyType) (sourceType : SourceType)
    (sourceRef : String) (trainingSteps : ℤ) : Prop :=
  job =
    { id := job.id, userId := userId, policy := policy, sourceType := sourceType
      sourceRef := sourceRef, trainingSteps := trainingSteps
      status := .queued, createdAt := job.createdAt, updatedAt := job.createdAt }

/-- Answers that the world accepts: the clock does not go back, identifiers are new. -/
structure Answers (D : Deployment) (w : World) (xs : ℕ → Choice) : Prop where
  clock : D.steady = true → ∀ n, w.clock ≤ (xs n).time ∧ (xs n).time ≤ (xs (n + 1)).time
  fresh : ∀ n, w.jobs.get? (xs n).text = none

section

variable {D : Deployment} {xs : ℕ → Choice} {w w' : World} {r : Except Exc Job}
  {userId sourceRef : String} {policy : PolicyType} {sourceType : SourceType} {trainingSteps : ℤ}

theorem Answers.later (h : Answers D w xs) (k : ℕ) : Answers D w fun n => xs (n + k) where
  clock hsteady n := by
    have hn := h.clock hsteady (n + k)
    rw [Nat.add_right_comm] at hn
    exact hn
  fresh n := h.fresh (n + k)

theorem exists_answers (D : Deployment) (w : World) : ∃ xs, Answers D w xs := by
  obtain ⟨jobId, hfresh⟩ := Infinite.exists_notMem_finset (w.jobs.rows.map Job.id).toFinset
  refine ⟨fun _ => { time := w.clock, text := jobId }, fun _ _ => ⟨le_rfl, le_rfl⟩, fun _ => ?_⟩
  rw [Table.get?_eq_none]
  intro job hjob heq
  exact hfresh (List.mem_toFinset.mpr (List.mem_map.mpr ⟨job, hjob, heq⟩))

/-- What `create_job` does: it refuses, or there is a new job. -/
theorem createJob_some (h : eval (World.exec D.steady) xs w
      (JobService.createJob userId policy sourceType sourceRef trainingSteps) = some (r, w')) :
    w'.objects = w.objects ∧
    match refusal w userId trainingSteps (dateOf (xs 2).time) with
    | some e => r = .error e ∧ w'.jobs = w.jobs
    | none => ∃ job, r = .ok job ∧ job.Fresh userId policy sourceType sourceRef trainingSteps ∧
        w.jobs.get? job.id = none ∧ w'.jobs = w.jobs.put job := by
  unfold JobService.createJob at h
  unfold refusal
  dsimp only at h ⊢
  split at h
  · rename_i hsteps
    rw [if_pos hsteps]
    obtain ⟨rfl, rfl⟩ := Prod.mk.inj (Option.some.inj h)
    exact ⟨rfl, rfl, rfl⟩
  · rename_i hsteps
    rw [if_neg hsteps]
    rw [eval_perform] at h
    simp only [World.exec, Option.bind_some] at h
    cases huser : w.users.get? userId with
    | none =>
      rw [huser] at h
      obtain ⟨rfl, rfl⟩ := Prod.mk.inj (Option.some.inj h)
      exact ⟨rfl, rfl, rfl⟩
    | some user =>
      rw [huser] at h
      dsimp only at h ⊢
      rw [eval_perform] at h
      simp only [World.exec, Option.bind_some] at h
      rw [eval_perform] at h
      simp only [World.exec] at h
      split at h
      · cases h
      · simp only [Option.bind_some] at h
        split at h
        · rename_i hquota
          rw [if_pos hquota]
          obtain ⟨rfl, rfl⟩ := Prod.mk.inj (Option.some.inj h)
          exact ⟨rfl, rfl, rfl⟩
        · rename_i hquota
          rw [if_neg hquota]
          rw [eval_perform] at h
          simp only [World.exec] at h
          split at h
          · cases h
          · rw [Option.bind_some, eval_perform] at h
            simp only [World.exec, Option.bind_some] at h
            rw [eval_perform] at h
            simp only [World.exec] at h
            split at h
            · cases h
            · rename_i hfresh
              simp only [Option.bind_some, eval_pure, Option.some.injEq, Prod.mk.injEq] at h
              obtain ⟨rfl, rfl⟩ := h
              refine ⟨rfl, _, rfl, rfl, ?_, rfl⟩
              simpa using hfresh

theorem createJob_ends (h : Answers D w xs) : (eval (World.exec D.steady) xs w
    (JobService.createJob userId policy sourceType sourceRef trainingSteps)).isSome = true := by
  have hclock : ∀ n, ∀ w₁ : World, w₁.clock ≤ (xs n).time ∨ D.steady = false →
      ¬ (D.steady && decide ((xs n).time < w₁.clock)) = true := by
    intro n w₁ hle hearly
    rw [Bool.and_eq_true, decide_eq_true_eq] at hearly
    rcases hle with hle | hfalse
    · omega
    · rw [hfalse] at hearly
      cases hearly.1
  have hfirst : w.clock ≤ (xs 2).time ∨ D.steady = false := by
    cases hs : D.steady with
    | false => exact .inr rfl
    | true => exact .inl (h.clock hs 2).1
  have hsecond : (xs 2).time ≤ (xs 3).time ∨ D.steady = false := by
    cases hs : D.steady with
    | false => exact .inr rfl
    | true => exact .inl (h.clock hs 2).2
  unfold JobService.createJob
  dsimp only
  split
  · rfl
  · rw [eval_perform]
    simp only [World.exec, Option.bind_some]
    cases w.users.get? userId with
    | none => rfl
    | some user =>
      dsimp only
      rw [eval_perform]
      simp only [World.exec, Option.bind_some]
      rw [eval_perform]
      simp only [World.exec]
      rw [if_neg (hclock 2 w hfirst), Option.bind_some]
      split
      · rfl
      · rw [eval_perform]
        simp only [World.exec]
        rw [if_neg (hclock 3 { w with clock := (xs 2).time } hsecond), Option.bind_some, eval_perform]
        simp only [World.exec, Option.bind_some]
        rw [eval_perform]
        simp only [World.exec]
        rw [if_neg (by rw [h.fresh]; simp)]
        rfl

/-- The archive is opened twice: for the listing, and for the member. -/
theorem eval_readZipEntries {β : Type} {lib : Library} {objectPath : String} {data : Bytes}
    (hobject : w.objects.get? objectPath = some (objectPath, data))
    (f : Except Exc (List ZipEntryMeta) → Service β) :
    eval (World.exec D.steady) xs w (Prog.attempt (readZipEntries lib objectPath) >>= f) =
      eval (World.exec D.steady) (fun n => xs (n + 1))
        (w.record (.opened .listing objectPath data)) (f (lib.zipInfolist data)) := by
  unfold readZipEntries
  rw [eval_attempt_perform]
  simp only [World.exec, hobject, Option.bind_some]
  exact eval_attempt_ofExcept _ (lib.zipInfolist data) f

theorem eval_readInfoJson {β : Type} {lib : Library} {objectPath : String} {data : Bytes}
    {entries : List ZipEntryMeta} (hentries : lib.zipInfolist data = .ok entries)
    (hobject : w.objects.get? objectPath = some (objectPath, data))
    (f : Except Exc Json → Service β) :
    eval (World.exec D.steady) xs w (Prog.attempt (readInfoJson lib objectPath) >>= f) =
      eval (World.exec D.steady) (fun n => xs (n + 1))
        (w.record (.opened .member objectPath data)) (f (archivedInfo lib data)) := by
  have hmember : readInfoJson lib objectPath =
      (do
        let data ← Prog.ofExcept (← perform (.storageOpenReadStream .member objectPath))
        let _ ← Prog.ofExcept (lib.zipInfolist data)
        let infoBytes ← Prog.ofExcept (lib.zipRead data infoJsonPath)
        Prog.ofExcept (parseInfoJson lib.jsonLoads infoBytes)) := by
    unfold readInfoJson readZipMember
    show Prog.call _ _ = Prog.call _ _
    congr 1
    funext out
    cases out with
    | error e => rfl
    | ok data =>
      show Prog.bind (Prog.bind (Prog.ofExcept (lib.zipInfolist data)) _) _ =
        Prog.bind (Prog.ofExcept (lib.zipInfolist data)) _
      cases lib.zipInfolist data <;> rfl
  rw [hmember, eval_attempt_perform]
  simp only [World.exec, hobject, Option.bind_some]
  show eval _ _ _ (Prog.attempt (Prog.ofExcept (lib.zipInfolist data) >>= fun _ => _) >>= f) = _
  rw [hentries]
  show eval _ _ _ (Prog.attempt (Prog.ofExcept (lib.zipRead data infoJsonPath) >>= fun infoBytes =>
    Prog.ofExcept (parseInfoJson lib.jsonLoads infoBytes)) >>= f) = _
  rw [Prog.ofExcept_bind_ofExcept]
  exact eval_attempt_ofExcept _ (archivedInfo lib data) f

/-- How a submission ends after the checks. `objects` are those that a rejection leaves, and
`create` is what follows when there is none. -/
def Verdict.Concludes (w : World) (objects : Table (String × Bytes) String Prod.fst)
    (create : World → Option (Except Exc Job × World)) (out : Option (Except Exc Job × World)) :
    Verdict → Prop
  | accept => ∃ log, out = create { w with log := log }
  | reject => ∃ message log,
    out = some (.error (.uploadValidation message), { w with objects := objects, log := log })
  | raise e => ∃ log, out = some (.error e, { w with log := log })

theorem Verdict.Concludes.of_record {v : Verdict} {entry : Entry}
    {objects : Table (String × Bytes) String Prod.fst}
    {create : World → Option (Except Exc Job × World)} {out : Option (Except Exc Job × World)}
    (h : v.Concludes (w.record entry) objects create out) : v.Concludes w objects create out := by
  cases v <;> exact h

/-- The end of both submissions. -/
theorem concludes_compatibility {info : Json} {objects : Table (String × Bytes) String Prod.fst}
    {refuse : ValidationResult → Service Job} {create : Service Job}
    (hrefuse : ∀ shapeResult, ∃ message log, eval (World.exec D.steady) xs w (refuse shapeResult) =
      some (.error (.uploadValidation message), { w with objects := objects, log := log })) :
    (infoVerdict policy (.ok info)).Concludes w objects
      (fun w₁ => eval (World.exec D.steady) xs w₁ create)
      (eval (World.exec D.steady) xs w (do
        let shapeResult ← Prog.ofExcept (checkPolicyCompatibility info policy)
        if !shapeResult.ok then refuse shapeResult else create)) := by
  unfold infoVerdict
  dsimp only
  cases checkPolicyCompatibility info policy with
  | error e => exact ⟨_, rfl⟩
  | ok shapeResult =>
    dsimp only
    show Verdict.Concludes _ _ _ (eval _ _ _ (if !shapeResult.ok then _ else _)) _
    by_cases hok : shapeResult.ok = true
    · rw [if_pos hok, if_neg (by simpa using hok)]
      exact ⟨_, rfl⟩
    · rw [if_neg hok, if_pos (by simpa using hok)]
      exact hrefuse shapeResult

theorem eval_confirmContent {path : String} {data : Bytes} {entries : List ZipEntryMeta}
    (hentries : D.lib.zipInfolist data = .ok entries)
    (hobject : w.objects.get? path = some (path, data)) :
    (infoVerdict policy (archivedInfo D.lib data)).Concludes w (w.objects.erase path)
      (fun w₁ => eval (World.exec D.steady) (fun n => xs (n + 1)) w₁
        (JobService.createJob userId policy .zipUpload path trainingSteps))
      (eval (World.exec D.steady) xs w
        (confirmContent D.lib userId path policy trainingSteps)) := by
  unfold confirmContent
  rw [eval_readInfoJson hentries hobject]
  cases archivedInfo D.lib data with
  | error e =>
    cases e with
    | key m => exact ⟨_, _, rfl⟩
    | fileNotFound m => exact ⟨_, _, rfl⟩
    | invalidInfoJson m => exact ⟨_, _, rfl⟩
    | _ => exact ⟨_, rfl⟩
  | ok info => exact .of_record (concludes_compatibility fun _ => ⟨_, _, rfl⟩)

/-- A confirmation creates a job, deletes the object, or raises and leaves it where it is. -/
theorem eval_confirmZipUpload (D : Deployment) (xs : ℕ → Choice) (policy : PolicyType)
    (trainingSteps : ℤ) {uploadId : String} {data : Bytes}
    (hobject : w.objects.get? (objectPath userId uploadId) =
      some (objectPath userId uploadId, data)) :
    (zipVerdict D.lib D.limits policy data).Concludes w
      (w.objects.erase (objectPath userId uploadId))
      (fun w₁ => eval (World.exec D.steady) (fun n => xs (n + 3)) w₁
        (JobService.createJob userId policy .zipUpload (objectPath userId uploadId) trainingSteps))
      (eval (World.exec D.steady) xs w
        (confirmZipUpload D.lib D.limits userId uploadId policy trainingSteps)) := by
  unfold confirmZipUpload zipVerdict
  rw [eval_perform]
  simp only [World.exec, hobject, Option.isSome_some, Option.bind_some, Bool.not_true,
    Bool.false_eq_true, if_false]
  rw [eval_readZipEntries hobject]
  cases hentries : D.lib.zipInfolist data with
  | error e =>
    cases e with
    | badZipFile m => exact ⟨_, _, rfl⟩
    | _ => exact ⟨_, rfl⟩
  | ok entries =>
    dsimp only
    by_cases hstructure : (checkLerobotStructure (entries.map ZipEntryMeta.name)).ok = true
    · simp only [hstructure, Bool.not_true, Bool.false_eq_true, if_false]
      by_cases hbomb : (checkDecompressionBomb entries D.limits).ok = true
      · simp only [hbomb, Bool.not_true, Bool.false_eq_true, if_false]
        exact .of_record (eval_confirmContent hentries hobject)
      · simp only [hbomb, Bool.not_false, if_true]
        exact ⟨_, _, rfl⟩
    · simp only [hstructure, Bool.not_false, if_true]
      exact ⟨_, _, rfl⟩

theorem eval_readRepoInfoJson {β : Type} {lib : Library} {repoId : String}
    {files : List (String × Bytes)} {content : Bytes}
    (hrepo : w.repos.get? repoId = some (repoId, files))
    (hfile : files.lookup infoJsonPath = some content) (f : Except Exc Json → Service β) :
    eval (World.exec D.steady) xs w (Prog.attempt (readRepoInfoJson lib repoId) >>= f) =
      eval (World.exec D.steady) (fun n => xs (n + 1)) w
        (f (parseInfoJson lib.jsonLoads content)) := by
  unfold readRepoInfoJson
  rw [eval_attempt_perform]
  simp only [World.exec, World.repoFiles, hrepo, Except.bind, hfile, Option.bind_some]
  exact eval_attempt_ofExcept _ (parseInfoJson lib.jsonLoads content) f

/-- A submission creates a job or raises. -/
theorem eval_submitHfDataset (xs : ℕ → Choice) (userId : String) (policy : PolicyType)
    (trainingSteps : ℤ) {repoId : String} {files : List (String × Bytes)}
    (hjson : D.lib.LoadsRaise) (hrepo : w.repos.get? repoId = some (repoId, files)) :
    (hubVerdict D.lib policy files).Concludes w w.objects
      (fun w₁ => eval (World.exec D.steady) (fun n => xs (n + 3)) w₁
        (JobService.createJob userId policy .hfHub repoId trainingSteps))
      (eval (World.exec D.steady) xs w
        (submitHfDataset D.lib userId repoId policy trainingSteps)) := by
  unfold submitHfDataset hubVerdict
  rw [eval_perform]
  simp only [World.exec, hrepo, Option.isSome_some, Option.bind_some, Bool.not_true,
    Bool.false_eq_true, if_false]
  rw [eval_perform]
  simp only [World.exec, World.repoFiles, hrepo, Except.map, Option.bind_some]
  by_cases hstructure : (checkLerobotStructure (files.map Prod.fst)).ok = true
  · obtain ⟨content, hfile⟩ := lookup_of_structure hstructure
    show Verdict.Concludes _ _ _ (eval _ _ _ (if !_ then _ else _)) _
    rw [if_neg (by simpa using hstructure), if_neg (by simpa using hstructure), hfile,
      eval_readRepoInfoJson hrepo hfile]
    dsimp only
    cases hinfo : parseInfoJson D.lib.jsonLoads content with
    | error e =>
      rcases parseInfoJson_raises hjson hinfo with ⟨m, rfl⟩ | ⟨name, m, rfl⟩
      · exact ⟨_, _, rfl⟩
      · exact ⟨_, rfl⟩
    | ok info => exact concludes_compatibility fun _ => ⟨_, _, rfl⟩
  · rw [if_pos (by simpa using hstructure)]
    show Verdict.Concludes _ _ _ (eval _ _ _ (if !_ then _ else _)) _
    rw [if_pos (by simpa using hstructure)]
    exact ⟨_, _, rfl⟩

end

end TrainVla
