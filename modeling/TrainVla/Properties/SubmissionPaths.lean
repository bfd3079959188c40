import TrainVla.System.Submissions

/-! The same dataset, as an archive and as a repository on the hub. Both ways to submit it should
have the same outcome. -/
namespace TrainVla

open Interaction Store UploadService

/-- A finite map from paths to contents. -/
abbrev Dataset := Table (String × Bytes) String Prod.fst

/-- A well-formed archive of exactly these files, in any order. -/
structure ArchiveOf (lib : Library) (dataset : Dataset) (archive : Bytes) : Prop where
  listing : ∃ entries, lib.zipInfolist archive = .ok entries ∧
    entries.Perm (dataset.rows.map fun file => ⟨file.1, file.2.length⟩)
  member : ∀ file ∈ dataset, lib.zipRead archive file.1 = .ok file.2

/-- A public repository with exactly these files. -/
def RepoOf (w : World) (dataset : Dataset) (repoId : String) : Prop :=
  ∃ files, w.repos.get? repoId = some (repoId, files) ∧ files.Perm dataset.rows

def WithinLimits (limits : ValidationLimits) (dataset : Dataset) : Prop :=
  (dataset.rows.length : ℤ) ≤ limits.maxFileCount ∧
    (∀ file ∈ dataset, (file.2.length : ℤ) ≤ limits.maxSingleFileBytes) ∧
    (dataset.rows.map fun file => (file.2.length : ℤ)).sum ≤ limits.maxTotalUncompressedBytes

def WellStructured (dataset : Dataset) : Prop :=
  (checkLerobotStructure (dataset.rows.map Prod.fst)).ok = true

/-- `meta/info.json` is not JSON, or an object that does not describe the features needed. -/
def InfoRejected (lib : Library) (policy : PolicyType) (dataset : Dataset) : Prop :=
  ∃ content, dataset.get? infoJsonPath = some (infoJsonPath, content) ∧
    ((∃ message, parseInfoJson lib.jsonLoads content = .error (.invalidInfoJson message)) ∨
      ∃ items, parseInfoJson lib.jsonLoads content = .ok (.obj items) ∧
        ¬ Suitable policy (.obj items))

def InfoAccepted (lib : Library) (policy : PolicyType) (dataset : Dataset) : Prop :=
  ∃ content info, dataset.get? infoJsonPath = some (infoJsonPath, content) ∧
    parseInfoJson lib.jsonLoads content = .ok info ∧ Suitable policy info

/-- Both submissions create a job, both fail the validation, or both are refused alike. -/
def Agree (w : World) (zip hub : Except Exc Job × World) : Prop :=
  ((∃ job, zip.1 = .ok job ∧ w.jobs.get? job.id = none ∧ zip.2.jobs = w.jobs.put job) ∧
      ∃ job, hub.1 = .ok job ∧ w.jobs.get? job.id = none ∧ hub.2.jobs = w.jobs.put job) ∨
    ((∃ message, zip.1 = .error (.uploadValidation message)) ∧
      ∃ message, hub.1 = .error (.uploadValidation message)) ∨
    ∃ e, e.Refuses ∧ zip.1 = .error e ∧ hub.1 = .error e

/-- The two submissions of a dataset, from one state and on the same days. -/
def SubmissionsAgree (D : Deployment) (w : World) (userId uploadId repoId : String)
    (policy : PolicyType) (trainingSteps : ℤ) : Prop :=
  ∀ xs ys zip hub, (∀ n, dateOf (xs n).time = dateOf (ys n).time) →
    eval (World.exec D.steady) xs w
      (confirmZipUpload D.lib D.limits userId uploadId policy trainingSteps) = some zip →
    eval (World.exec D.steady) ys w
      (submitHfDataset D.lib userId repoId policy trainingSteps) = some hub →
    Agree w zip hub

namespace SubmissionPaths

section

variable {lib : Library} {limits : ValidationLimits} {policy : PolicyType} {dataset : Dataset}
  {archive : Bytes} {files : List (String × Bytes)}

theorem checkLerobotStructure_perm {names names' : List String} (h : names.Perm names') :
    (checkLerobotStructure names).ok = (checkLerobotStructure names').ok := by
  rw [Bool.eq_iff_iff, checkLerobotStructure_ok, checkLerobotStructure_ok, h.mem_iff]
  simp only [h.mem_iff]

theorem lookup_of_perm {path : String} {content : Bytes} (h : files.Perm dataset.rows)
    (hfile : files.lookup path = some content) : dataset.get? path = some (path, content) := by
  obtain ⟨front, rest, rfl, -⟩ := List.lookup_eq_some_iff.mp hfile
  exact Table.get?_eq_some.mpr ⟨h.subset (by simp), rfl⟩

/-- The listing of an archive passes the size checks if and only if the dataset is within the
limits. -/
theorem checkDecompressionBomb_iff {entries : List ZipEntryMeta} (hnonempty : dataset.rows ≠ [])
    (h : entries.Perm (dataset.rows.map fun file => ⟨file.1, file.2.length⟩)) :
    (checkDecompressionBomb entries limits).ok = true ↔ WithinLimits limits dataset := by
  have hsizes : ∀ entry ∈ entries, 0 ≤ entry.uncompressedSize := by
    intro entry hentry
    obtain ⟨file, -, rfl⟩ := List.mem_map.mp (h.subset hentry)
    exact Int.natCast_nonneg _
  have hlength : entries.length = dataset.rows.length := by
    rw [h.length_eq, List.length_map]
  have hentries : entries ≠ [] := by
    rintro rfl
    exact hnonempty (List.length_eq_zero_iff.mp hlength.symm)
  have hsum : (entries.map ZipEntryMeta.uncompressedSize).sum =
      (dataset.rows.map fun file => (file.2.length : ℤ)).sum := by
    rw [(h.map ZipEntryMeta.uncompressedSize).sum_eq, List.map_map]
    rfl
  have hsingle : (∀ entry ∈ entries, entry.uncompressedSize ≤ limits.maxSingleFileBytes) ↔
      ∀ file ∈ dataset, (file.2.length : ℤ) ≤ limits.maxSingleFileBytes := by
    simp only [h.mem_iff, List.mem_map, forall_exists_index, and_imp, forall_apply_eq_imp_iff₂]
    rfl
  unfold WithinLimits
  rw [checkDecompressionBomb_ok hsizes (.inl hentries), hlength, hsum, hsingle]

theorem archivedInfo_of_member {content : Bytes} (harchive : ArchiveOf lib dataset archive)
    (hfile : dataset.get? infoJsonPath = some (infoJsonPath, content)) :
    archivedInfo lib archive = parseInfoJson lib.jsonLoads content := by
  have hread := harchive.member _ (Table.mem_of_get? hfile)
  unfold archivedInfo
  rw [hread]
  rfl

/-- What the two submissions make of the same dataset. -/
theorem verdicts_of_structure (limits : ValidationLimits) (policy : PolicyType) {content : Bytes}
    (hstructure : WellStructured dataset)
    (hfile : dataset.get? infoJsonPath = some (infoJsonPath, content))
    (harchive : ArchiveOf lib dataset archive) (hfiles : files.Perm dataset.rows) :
    hubVerdict lib policy files = infoVerdict policy (parseInfoJson lib.jsonLoads content) ∧
      (WithinLimits limits dataset → zipVerdict lib limits policy archive =
        infoVerdict policy (parseInfoJson lib.jsonLoads content)) ∧
      (¬ WithinLimits limits dataset → zipVerdict lib limits policy archive = .reject) := by
  have hnonempty : dataset.rows ≠ [] := by
    intro hnil
    have hmem : _ ∈ dataset.rows := Table.mem_of_get? hfile
    rw [hnil] at hmem
    cases hmem
  obtain ⟨entries, hentries, hperm⟩ := harchive.listing
  have hnames : (entries.map ZipEntryMeta.name).Perm (dataset.rows.map Prod.fst) := by
    have h := hperm.map ZipEntryMeta.name
    rwa [List.map_map] at h
  have hzip : (checkLerobotStructure (entries.map ZipEntryMeta.name)).ok = true :=
    (checkLerobotStructure_perm hnames).trans hstructure
  have hhub : (checkLerobotStructure (files.map Prod.fst)).ok = true :=
    (checkLerobotStructure_perm (hfiles.map Prod.fst)).trans hstructure
  refine ⟨?_, fun hlimits => ?_, fun hlimits => ?_⟩
  · obtain ⟨content', hlookup⟩ := lookup_of_structure hhub
    have hsame := lookup_of_perm hfiles hlookup
    rw [hfile, Option.some.injEq, Prod.mk.injEq] at hsame
    obtain ⟨-, rfl⟩ := hsame
    unfold hubVerdict
    rw [hhub, hlookup]
    rfl
  · rw [← checkDecompressionBomb_iff hnonempty hperm] at hlimits
    rw [← archivedInfo_of_member harchive hfile]
    simp [zipVerdict, hentries, hzip, hlimits]
  · rw [← checkDecompressionBomb_iff hnonempty hperm] at hlimits
    simp [zipVerdict, hentries, hzip, hlimits]

theorem verdicts_of_not_structure (limits : ValidationLimits) (policy : PolicyType)
    (hstructure : ¬ WellStructured dataset)
    (harchive : ArchiveOf lib dataset archive) (hfiles : files.Perm dataset.rows) :
    hubVerdict lib policy files = .reject ∧ zipVerdict lib limits policy archive = .reject := by
  obtain ⟨entries, hentries, hperm⟩ := harchive.listing
  have hnames : (entries.map ZipEntryMeta.name).Perm (dataset.rows.map Prod.fst) := by
    have h := hperm.map ZipEntryMeta.name
    rwa [List.map_map] at h
  have hzip : ¬ (checkLerobotStructure (entries.map ZipEntryMeta.name)).ok = true := by
    rwa [checkLerobotStructure_perm hnames]
  have hhub : ¬ (checkLerobotStructure (files.map Prod.fst)).ok = true := by
    rwa [checkLerobotStructure_perm (hfiles.map Prod.fst)]
  constructor
  · simp [hubVerdict, hhub]
  · simp [zipVerdict, hentries, hzip]

/-- The results that a verdict leaves open. -/
def Allows (v : Verdict) (r : Except Exc Job) : Prop :=
  match v with
  | .accept => (∃ job, r = .ok job) ∨ ∃ e, r = .error e ∧ e.Refuses
  | .reject => ∃ message, r = .error (.uploadValidation message)
  | .raise e => r = .error e

/-- Both create a job or are refused, or both are rejected. -/
def Alike : Verdict → Verdict → Prop
  | .accept, .accept => True
  | .reject, .reject => True
  | _, _ => False

end

section

variable {D : Deployment} {w : World} {userId uploadId repoId sourceRef : String}
  {policy : PolicyType} {sourceType : SourceType} {trainingSteps : ℤ} {archive : Bytes}
  {files : List (String × Bytes)} {xs ys : ℕ → Choice} {v v' : Verdict}
  {objects : Table (String × Bytes) String Prod.fst} {zip hub : Except Exc Job × World}

/-- A submission with this verdict, evaluated from `w`. -/
abbrev Submits (D : Deployment) (w : World) (xs : ℕ → Choice) (userId : String)
    (policy : PolicyType) (sourceType : SourceType) (sourceRef : String) (trainingSteps : ℤ)
    (objects : Table (String × Bytes) String Prod.fst) (v : Verdict)
    (out : Option (Except Exc Job × World)) : Prop :=
  v.Concludes w objects (fun w₁ => eval (World.exec D.steady) (fun n => xs (n + 3)) w₁
    (JobService.createJob userId policy sourceType sourceRef trainingSteps)) out

theorem allows_of_submits
    (h : Submits D w xs userId policy sourceType sourceRef trainingSteps objects v (some zip)) :
    Allows v zip.1 := by
  cases v with
  | accept =>
    obtain ⟨log, heval⟩ := h
    obtain ⟨-, hcases⟩ := createJob_some heval.symm
    split at hcases
    · rename_i e he
      exact .inr ⟨e, hcases.1, refuses_of_refusal he⟩
    · obtain ⟨job, hr, -⟩ := hcases
      exact .inl ⟨job, hr⟩
  | reject =>
    obtain ⟨message, log, heval⟩ := h
    obtain rfl := Option.some.inj heval
    exact ⟨message, rfl⟩
  | raise e =>
    obtain ⟨log, heval⟩ := h
    obtain rfl := Option.some.inj heval
    rfl

theorem ends_of_submits {out : Option (Except Exc Job × World)} (hxs : Answers D w xs)
    (h : Submits D w xs userId policy sourceType sourceRef trainingSteps objects v out) :
    ∃ zip, out = some zip := by
  cases v with
  | accept =>
    obtain ⟨log, heval⟩ := h
    rw [heval]
    exact Option.isSome_iff_exists.mp (createJob_ends ⟨(hxs.later 3).clock, (hxs.later 3).fresh⟩)
  | reject =>
    obtain ⟨message, log, heval⟩ := h
    exact ⟨_, heval⟩
  | raise e =>
    obtain ⟨log, heval⟩ := h
    exact ⟨_, heval⟩

/-- Two accepted submissions differ only in the job that they store. -/
theorem agree_of_alike {objects' : Table (String × Bytes) String Prod.fst}
    {sourceType' : SourceType} {sourceRef' : String}
    (hdays : ∀ n, dateOf (xs n).time = dateOf (ys n).time) (halike : Alike v v')
    (hzip : Submits D w xs userId policy sourceType sourceRef trainingSteps objects v (some zip))
    (hhub : Submits D w ys userId policy sourceType' sourceRef' trainingSteps objects' v'
      (some hub)) : Agree w zip hub := by
  cases v with
  | accept =>
    cases v' with
    | accept =>
      obtain ⟨log, hz⟩ := hzip
      obtain ⟨log', hh⟩ := hhub
      obtain ⟨-, hz⟩ := createJob_some hz.symm
      obtain ⟨-, hh⟩ := createJob_some hh.symm
      have hsame : ∀ log today, refusal { w with log := log } userId trainingSteps today =
          refusal w userId trainingSteps today := fun _ _ => rfl
      dsimp only [Nat.reduceAdd] at hz hh
      rw [hsame] at hz hh
      rw [← hdays 5] at hh
      cases hrefusal : refusal w userId trainingSteps (dateOf (xs 5).time) with
      | some e =>
        rw [hrefusal] at hz hh
        exact .inr (.inr ⟨e, refuses_of_refusal hrefusal, hz.1, hh.1⟩)
      | none =>
        rw [hrefusal] at hz hh
        obtain ⟨job, hr, -, hid, hjobs⟩ := hz
        obtain ⟨job', hr', -, hid', hjobs'⟩ := hh
        exact .inl ⟨⟨job, hr, hid, hjobs⟩, job', hr', hid', hjobs'⟩
    | _ => cases halike
  | reject =>
    cases v' with
    | reject => exact .inr (.inl ⟨allows_of_submits hzip, allows_of_submits hhub⟩)
    | _ => cases halike
  | raise e => cases halike

/-- The results tell the verdicts apart. -/
theorem eq_accept_of_allows {r : Except Exc Job}
    (hother : ∀ e, v = .raise e → ∃ name m, e = .other name m) (h : Allows v r)
    (haccept : Allows .accept r) : v = .accept := by
  cases v with
  | accept => rfl
  | reject =>
    obtain ⟨message, rfl⟩ := h
    rcases haccept with ⟨job, heq⟩ | ⟨e, heq, hrefuses⟩
    · cases heq
    · cases heq
      cases hrefuses
  | raise e =>
    obtain ⟨name, m, rfl⟩ := hother e rfl
    obtain rfl : r = .error (.other name m) := h
    rcases haccept with ⟨job, heq⟩ | ⟨e, heq, hrefuses⟩
    · cases heq
    · cases heq
      cases hrefuses

theorem eq_reject_of_allows {r : Except Exc Job}
    (hother : ∀ e, v = .raise e → ∃ name m, e = .other name m) (h : Allows v r)
    (hreject : Allows .reject r) : v = .reject := by
  obtain ⟨message, rfl⟩ := hreject
  cases v with
  | accept =>
    rcases h with ⟨job, heq⟩ | ⟨e, heq, hrefuses⟩
    · cases heq
    · cases heq
      cases hrefuses
  | reject => rfl
  | raise e =>
    obtain ⟨name, m, rfl⟩ := hother e rfl
    cases h

theorem alike_of_agree (hother : ∀ e, v = .raise e → ∃ name m, e = .other name m)
    (hother' : ∀ e, v' = .raise e → ∃ name m, e = .other name m) (hzip : Allows v zip.1)
    (hhub : Allows v' hub.1) (hagree : Agree w zip hub) : Alike v v' := by
  rcases hagree with ⟨⟨job, hr, -⟩, job', hr', -⟩ | ⟨hr, hr'⟩ | ⟨e, hrefuses, hr, hr'⟩
  · have hv := eq_accept_of_allows hother hzip (.inl ⟨job, hr⟩)
    have hv' := eq_accept_of_allows hother' hhub (.inl ⟨job', hr'⟩)
    rw [hv, hv']
    trivial
  · have hv := eq_reject_of_allows hother hzip hr
    have hv' := eq_reject_of_allows hother' hhub hr'
    rw [hv, hv']
    trivial
  · have hv := eq_accept_of_allows hother hzip (.inr ⟨e, hr, hrefuses⟩)
    have hv' := eq_accept_of_allows hother' hhub (.inr ⟨e, hr', hrefuses⟩)
    rw [hv, hv']
    trivial

theorem submissionsAgree_iff_alike (hjson : D.lib.LoadsRaise)
    (hother : ∀ e, zipVerdict D.lib D.limits policy archive = .raise e → ∃ name m, e = .other name m)
    (hother' : ∀ e, hubVerdict D.lib policy files = .raise e → ∃ name m, e = .other name m)
    (hobject : w.objects.get? (objectPath userId uploadId) =
      some (objectPath userId uploadId, archive))
    (hrepo : w.repos.get? repoId = some (repoId, files)) :
    SubmissionsAgree D w userId uploadId repoId policy trainingSteps ↔
      Alike (zipVerdict D.lib D.limits policy archive) (hubVerdict D.lib policy files) := by
  constructor
  · intro hagree
    obtain ⟨xs, hxs⟩ := exists_answers D w
    have hz := eval_confirmZipUpload D xs policy trainingSteps hobject
    have hh := eval_submitHfDataset xs userId policy trainingSteps hjson hrepo
    obtain ⟨zip, hzip⟩ := ends_of_submits hxs hz
    obtain ⟨hub, hhub⟩ := ends_of_submits hxs hh
    rw [hzip] at hz
    rw [hhub] at hh
    exact alike_of_agree hother hother' (allows_of_submits hz) (allows_of_submits hh)
      (hagree xs xs zip hub (fun _ => rfl) hzip hhub)
  · intro halike xs ys zip hub hdays hzip hhub
    have hz := eval_confirmZipUpload D xs policy trainingSteps hobject
    have hh := eval_submitHfDataset ys userId policy trainingSteps hjson hrepo
    rw [hzip] at hz
    rw [hhub] at hh
    exact agree_of_alike hdays halike hz hh

theorem infoVerdict_raises {content : Bytes} (hjson : D.lib.LoadsRaise) {e : Exc}
    (h : infoVerdict policy (parseInfoJson D.lib.jsonLoads content) = .raise e) :
    ∃ name m, e = .other name m := by
  cases hinfo : parseInfoJson D.lib.jsonLoads content with
  | error e' =>
    rw [hinfo] at h
    rcases parseInfoJson_raises hjson hinfo with ⟨m, rfl⟩ | ⟨name, m, rfl⟩
    · cases h
    · exact ⟨name, m, (Verdict.raise.inj h).symm⟩
  | ok info =>
    rw [hinfo] at h
    cases info with
    | obj items =>
      rcases infoVerdict_obj policy items with haccept | hreject
      · rw [haccept] at h
        cases h
      · rw [hreject] at h
        cases h
    | _ => exact ⟨_, _, (Verdict.raise.inj h).symm⟩

/-- What `meta/info.json` comes to, once both have reached it. -/
theorem infoVerdict_reject {content : Bytes} (hjson : D.lib.LoadsRaise) :
    infoVerdict policy (parseInfoJson D.lib.jsonLoads content) = .reject ↔
      (∃ message, parseInfoJson D.lib.jsonLoads content = .error (.invalidInfoJson message)) ∨
        ∃ items, parseInfoJson D.lib.jsonLoads content = .ok (.obj items) ∧
          ¬ Suitable policy (.obj items) := by
  cases hinfo : parseInfoJson D.lib.jsonLoads content with
  | error e =>
    rcases parseInfoJson_raises hjson hinfo with ⟨m, rfl⟩ | ⟨name, m, rfl⟩
    · exact iff_of_true rfl (.inl ⟨m, rfl⟩)
    · refine iff_of_false nofun ?_
      rintro (⟨message, heq⟩ | ⟨items, heq, -⟩)
      · cases heq
      · cases heq
  | ok info =>
    cases info with
    | obj items =>
      constructor
      · intro h
        refine .inr ⟨items, rfl, fun hsuitable => ?_⟩
        rw [infoVerdict_accept.mpr ⟨_, rfl, hsuitable⟩] at h
        cases h
      · rintro (⟨message, heq⟩ | ⟨items', heq, hsuitable⟩)
        · cases heq
        · obtain rfl : items = items' := Json.obj.inj (Except.ok.inj heq)
          refine (infoVerdict_obj _ items).resolve_left fun haccept => ?_
          obtain ⟨info, hread, hinfo⟩ := infoVerdict_accept.mp haccept
          obtain rfl := Except.ok.inj hread
          exact hsuitable hinfo
    | _ =>
      refine iff_of_false nofun ?_
      rintro (⟨message, heq⟩ | ⟨items, heq, -⟩)
      · cases heq
      · cases heq

theorem infoRejected_iff {dataset : Dataset} {content : Bytes} (hjson : D.lib.LoadsRaise)
    (hfile : dataset.get? infoJsonPath = some (infoJsonPath, content)) :
    InfoRejected D.lib policy dataset ↔
      infoVerdict policy (parseInfoJson D.lib.jsonLoads content) = .reject := by
  rw [infoVerdict_reject hjson]
  constructor
  · rintro ⟨content', hfile', h⟩
    rw [hfile, Option.some.injEq, Prod.mk.injEq] at hfile'
    obtain ⟨-, rfl⟩ := hfile'
    exact h
  · intro h
    exact ⟨content, hfile, h⟩

theorem infoAccepted_iff {dataset : Dataset} {content : Bytes}
    (hfile : dataset.get? infoJsonPath = some (infoJsonPath, content)) :
    InfoAccepted D.lib policy dataset ↔
      infoVerdict policy (parseInfoJson D.lib.jsonLoads content) = .accept := by
  rw [infoVerdict_accept]
  constructor
  · rintro ⟨content', info, hfile', h⟩
    rw [hfile, Option.some.injEq, Prod.mk.injEq] at hfile'
    obtain ⟨-, rfl⟩ := hfile'
    exact ⟨info, h⟩
  · rintro ⟨info, h⟩
    exact ⟨content, info, hfile, h⟩

end

end SubmissionPaths

open SubmissionPaths

/-- Every dataset, archive of it, repository with it, user, policy, step count and state: the two
submissions agree if and only if the structure or the document is rejected on both sides, or the
document is accepted and the dataset is within the limits. -/
theorem submissions_agree_iff (D : Deployment) (hjson : D.lib.LoadsRaise)
    (userId uploadId repoId : String) (policy : PolicyType) (trainingSteps : ℤ) {w : World}
    {dataset : Dataset} {archive : Bytes} (harchive : ArchiveOf D.lib dataset archive)
    (hobject : w.objects.get? (objectPath userId uploadId) =
      some (objectPath userId uploadId, archive))
    (hrepo : RepoOf w dataset repoId) :
    SubmissionsAgree D w userId uploadId repoId policy trainingSteps ↔
      ¬ WellStructured dataset ∨ InfoRejected D.lib policy dataset ∨
        (InfoAccepted D.lib policy dataset ∧ WithinLimits D.limits dataset) := by
  obtain ⟨files, hrepo, hfiles⟩ := hrepo
  by_cases hstructure : WellStructured dataset
  · obtain ⟨content, hlookup⟩ := lookup_of_structure hstructure
    have hfile := lookup_of_perm (List.Perm.refl dataset.rows) hlookup
    obtain ⟨hhub, hwithin, hbeyond⟩ := verdicts_of_structure D.limits policy
      hstructure hfile harchive hfiles
    have hraises : ∀ e, infoVerdict policy (parseInfoJson D.lib.jsonLoads content) = .raise e →
        ∃ name m, e = .other name m := fun e h => infoVerdict_raises hjson h
    rw [infoRejected_iff hjson hfile, infoAccepted_iff hfile]
    by_cases hlimits : WithinLimits D.limits dataset
    · have hzip := hwithin hlimits
      rw [submissionsAgree_iff_alike hjson (by rwa [hzip]) (by rwa [hhub]) hobject hrepo, hzip, hhub]
      cases infoVerdict policy (parseInfoJson D.lib.jsonLoads content) with
      | accept => exact iff_of_true trivial (.inr (.inr ⟨rfl, hlimits⟩))
      | reject => exact iff_of_true trivial (.inr (.inl rfl))
      | raise e => exact iff_of_false id (by simp [hstructure])
    · have hzip := hbeyond hlimits
      rw [submissionsAgree_iff_alike hjson (by rw [hzip]; nofun) (by rwa [hhub]) hobject hrepo,
        hzip, hhub]
      cases infoVerdict policy (parseInfoJson D.lib.jsonLoads content) with
      | accept => exact iff_of_false id (by simp [hstructure, hlimits])
      | reject => exact iff_of_true trivial (.inr (.inl rfl))
      | raise e => exact iff_of_false id (by simp [hstructure])
  · obtain ⟨hhub, hzip⟩ := verdicts_of_not_structure D.limits policy
      hstructure harchive hfiles
    refine iff_of_true ?_ (.inl hstructure)
    rw [submissionsAgree_iff_alike hjson (by rw [hzip]; nofun) (by rw [hhub]; nofun) hobject hrepo,
      hzip, hhub]
    trivial

namespace SubmissionPaths

/-- An archive starts with the size of `info.json`, its bytes follow, and then the data. -/
def archiver : Deployment where
  lib :=
    { Deployment.camera.lib with
      zipInfolist := fun
        | [] => .error (.badZipFile "File is not a zip file")
        | size :: rest => .ok [⟨infoJsonPath, (rest.take size.toNat).length⟩,
            ⟨"data/chunk", (rest.drop size.toNat).length⟩]
      zipRead := fun
        | [], _ => .error (.badZipFile "File is not a zip file")
        | size :: rest, name =>
          if name = infoJsonPath then .ok (rest.take size.toNat)
          else if name = "data/chunk" then .ok (rest.drop size.toNat)
          else .error (.key name) }

theorem archiver_loadsRaise : archiver.lib.LoadsRaise := by
  intro raw e h
  have hload : Deployment.camera.lib.jsonLoads raw = .error e := h
  unfold Deployment.camera at hload
  dsimp only at hload
  split at hload
  · cases hload
  · cases hload
  · cases hload
  · exact .inr (.inl ⟨_, (Except.error.inj hload).symm⟩)

/-- A dataset with a camera. -/
def recording (data : Bytes) : Dataset where
  rows := [(infoJsonPath, []), ("data/chunk", data)]
  nodup := by simp [infoJsonPath]

theorem recording_structure (data : Bytes) : WellStructured (recording data) := by
  have hdir : startsWith "data/chunk" requiredDirPrefix = true := by decide +kernel
  exact checkLerobotStructure_ok.mpr ⟨by simp [recording, infoJsonPath, requiredMetaFile],
    "data/chunk", by simp [recording], hdir⟩

theorem recording_archive (data : Bytes) : ArchiveOf archiver.lib (recording data) (0 :: data) where
  listing := ⟨_, rfl, .refl _⟩
  member := by
    intro file hfile
    have hfile : file ∈ [(infoJsonPath, []), ("data/chunk", data)] := hfile
    rw [List.mem_pair] at hfile
    rcases hfile with rfl | rfl <;> rfl

/-- The dataset is uploaded, and on the hub. -/
def published (data : Bytes) : World :=
  { World.sample with
    objects := Table.empty.put (objectPath "user" "upload", 0 :: data)
    repos := Table.empty.put ("org/dataset", (recording data).rows) }

theorem published_repo (data : Bytes) :
    (published data).repos.get? "org/dataset" = some ("org/dataset", (recording data).rows) :=
  Table.get?_put_self _ _

theorem published_object (data : Bytes) : (published data).objects.get? (objectPath "user" "upload") =
    some (objectPath "user" "upload", 0 :: data) := Table.get?_put_self _ _

end SubmissionPaths

/-- Of a data file with one byte too many, only the archive is rejected. -/
theorem submissions_agree_fails : ¬ ∀ (D : Deployment) (_ : D.lib.LoadsRaise)
    (userId uploadId repoId : String) (policy : PolicyType) (trainingSteps : ℤ) (w : World)
    (dataset : Dataset) (archive : Bytes) (_ : ArchiveOf D.lib dataset archive)
    (_ : w.objects.get? (objectPath userId uploadId) = some (objectPath userId uploadId, archive))
    (_ : RepoOf w dataset repoId),
    SubmissionsAgree D w userId uploadId repoId policy trainingSteps := by
  intro h
  obtain ⟨data, hlarge⟩ : ∃ data : Bytes, data.length = 512 * 1024 ^ 2 + 1 :=
    ⟨List.replicate (512 * 1024 ^ 2 + 1) 0, List.length_replicate⟩
  have hbeyond : ¬ WithinLimits archiver.limits (recording data) := by
    rintro ⟨-, hsingle, -⟩
    have hsize := hsingle ("data/chunk", data) (List.mem_cons_of_mem _ List.mem_cons_self)
    have hlimit : archiver.limits.maxSingleFileBytes = 512 * 1024 ^ 2 := rfl
    rw [hlimit] at hsize
    dsimp only at hsize
    omega
  have hfile : (recording data).get? infoJsonPath = some (infoJsonPath, []) := by rfl
  have hinfo : infoVerdict .act (parseInfoJson archiver.lib.jsonLoads []) = .accept := by rfl
  obtain ⟨hhub, -, hzip⟩ := verdicts_of_structure archiver.limits .act
    (recording_structure data) hfile (recording_archive data) (List.Perm.refl _)
  have hzip := hzip hbeyond
  rw [hinfo] at hhub
  have hagree := h archiver archiver_loadsRaise "user" "upload" "org/dataset" .act 100
    (published data) (recording data) _ (recording_archive data) (published_object data)
    ⟨_, published_repo data, .refl _⟩
  rw [submissionsAgree_iff_alike archiver_loadsRaise (by rw [hzip]; nofun) (by rw [hhub]; nofun)
    (published_object data) (published_repo data), hzip, hhub] at hagree
  exact hagree

theorem submissions_agree_iff_small :
    SubmissionsAgree archiver (published []) "user" "upload" "org/dataset" .act 100 ↔
      ¬ WellStructured (recording []) ∨ InfoRejected archiver.lib .act (recording []) ∨
        (InfoAccepted archiver.lib .act (recording []) ∧
          WithinLimits archiver.limits (recording [])) :=
  submissions_agree_iff archiver archiver_loadsRaise "user" "upload" "org/dataset" .act 100
    (recording_archive []) (published_object []) ⟨_, published_repo [], .refl _⟩

end TrainVla
