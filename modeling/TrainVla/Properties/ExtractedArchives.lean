import TrainVla.System.Provenance

/-! An archive that is extracted was listed before, and passes the checks unless it was replaced
in between. -/
namespace TrainVla

open Interaction Store

/-- What the history says was put at a path last. -/
def lastPut (objectPath : String) : List Entry → Option Bytes
  | [] => none
  | .stored path data :: log => if path = objectPath then some data else lastPut objectPath log
  | .uploaded path _ data :: log => if path = objectPath then some data else lastPut objectPath log
  | _ :: log => lastPut objectPath log

/-- After a listing of the object had passed the checks, it was not replaced before it was
opened to be extracted, or what replaced it last passes them too. -/
def KeptValid (D : Deployment) (objectPath : String) (data : Bytes) (log : List Entry) : Prop :=
  ∃ newer since before accepted,
    log = newer ++ .opened .extraction objectPath data ::
      (since ++ .opened .listing objectPath accepted :: before) ∧
    Passes D accepted ∧ ∀ replacement, lastPut objectPath since = some replacement →
      Passes D replacement

namespace ExtractedArchives

/-- Whatever was read had been put there last. -/
def Faithful : List Entry → Prop
  | [] => True
  | .opened _ objectPath data :: log => lastPut objectPath log = some data ∧ Faithful log
  | _ :: log => Faithful log

/-- Entries that are not about objects. -/
def Silent : Entry → Prop
  | .opened .. => False
  | .stored .. => False
  | .uploaded .. => False
  | _ => True

theorem lastPut_append (objectPath : String) (newer older : List Entry) :
    lastPut objectPath (newer ++ older) =
      (lastPut objectPath newer).or (lastPut objectPath older) := by
  induction newer with
  | nil => rfl
  | cons entry newer ih =>
    cases entry with
    | stored path data =>
      simp only [List.cons_append, lastPut]
      split
      · rfl
      · exact ih
    | uploaded path jobId data =>
      simp only [List.cons_append, lastPut]
      split
      · rfl
      · exact ih
    | _ => exact ih

theorem lastPut_silent {objectPath : String} {entries log : List Entry}
    (h : ∀ entry ∈ entries, Silent entry) :
    lastPut objectPath (entries ++ log) = lastPut objectPath log := by
  induction entries with
  | nil => rfl
  | cons entry entries ih =>
    rw [List.forall_mem_cons] at h
    have hsilent := h.1
    cases entry with
    | opened purpose path data => exact hsilent.elim
    | stored path data => exact hsilent.elim
    | uploaded path jobId data => exact hsilent.elim
    | _ => exact ih h.2

theorem faithful_silent {entries log : List Entry} (h : ∀ entry ∈ entries, Silent entry)
    (hlog : Faithful log) : Faithful (entries ++ log) := by
  induction entries with
  | nil => exact hlog
  | cons entry entries ih =>
    rw [List.forall_mem_cons] at h
    have hsilent := h.1
    cases entry with
    | opened purpose path data => exact hsilent.elim
    | stored path data => exact hsilent.elim
    | uploaded path jobId data => exact hsilent.elim
    | _ => exact ih h.2

theorem Faithful.tail {newer older : List Entry} (h : Faithful (newer ++ older)) :
    Faithful older := by
  induction newer with
  | nil => exact h
  | cons entry newer ih =>
    cases entry with
    | opened purpose path data => exact ih h.2
    | _ => exact ih h

theorem Faithful.read {newer older : List Entry} {purpose : ReadPurpose} {objectPath : String}
    {data : Bytes} (h : Faithful (newer ++ .opened purpose objectPath data :: older)) :
    lastPut objectPath older = some data := h.tail.1

theorem silent_of_logs {c : Call} (hobjects : c.writesObjects = false)
    (hopen : ∀ purpose objectPath, c ≠ .storageOpenReadStream purpose objectPath) {entry : Entry}
    (h : c.logs entry) : Silent entry := by
  cases c with
  | jobsCreate job =>
    obtain ⟨time, old, rfl⟩ := h
    trivial
  | jobsUpdate seen job =>
    obtain ⟨time, old, rfl⟩ := h
    trivial
  | usersUpdate charge seen user =>
    cases charge with
    | none => exact h.elim
    | some jobId =>
      obtain rfl := h
      trivial
  | dockerRun spec =>
    obtain rfl := h
    trivial
  | storageOpenReadStream purpose objectPath => exact absurd rfl (hopen purpose objectPath)
  | storageUploadFile objectPath jobId => cases hobjects
  | hubDownloadDataset repoId dirName =>
    obtain ⟨files, rfl⟩ := h
    trivial
  | _ => exact h.elim

/-- What is stored is what was put last, and so is what was read. -/
structure Inv (w : World) : Prop where
  stored : ∀ path data, w.objects.get? path = some (path, data) → lastPut path w.log = some data
  read : Faithful w.log

theorem stored_put {w : World} {path : String} {data : Bytes} {entry : Entry}
    (hlast : ∀ other, lastPut other (entry :: w.log) =
      if path = other then some data else lastPut other w.log) (hi : Inv w) :
    ∀ other data', (w.objects.put (path, data)).get? other = some (other, data') →
      lastPut other (entry :: w.log) = some data' := by
  intro other data' hget
  rw [Table.get?_put] at hget
  rw [hlast]
  split at hget
  · rename_i heq
    rw [if_pos heq.symm, (Prod.mk.inj (Option.some.inj hget)).2]
  · rename_i hne
    rw [if_neg (Ne.symm hne)]
    exact hi.stored other data' hget

theorem inv_exec {steady : Bool} {o : Choice} {w w' : World} {c : Call} {r : c.Resp}
    (he : World.exec steady o w c = some (r, w')) (hi : Inv w) : Inv w' := by
  have hframe := World.exec_frame he
  have hquiet : c.writesObjects = false →
      (∀ purpose objectPath, c ≠ .storageOpenReadStream purpose objectPath) → Inv w' := by
    intro hobjects hopen
    obtain ⟨entries, hlog, hentries⟩ := hframe.log
    have hsilent : ∀ entry ∈ entries, Silent entry :=
      fun entry hmem => silent_of_logs hobjects hopen (hentries entry hmem)
    constructor
    · rw [hframe.objects hobjects, hlog]
      intro path data hget
      rw [lastPut_silent hsilent]
      exact hi.stored path data hget
    · rw [hlog]
      exact faithful_silent hsilent hi.read
  cases c with
  | storageOpenReadStream purpose path =>
    cases r with
    | ok data =>
      obtain ⟨hget, rfl⟩ := World.exec_open he
      exact ⟨hi.stored, hi.stored path data hget, hi.read⟩
    | error e =>
      simp only [World.exec] at he
      split at he
      · cases (Prod.mk.inj (Option.some.inj he)).1
      · obtain ⟨-, rfl⟩ := Prod.mk.inj (Option.some.inj he)
        exact hi
  | storageDelete path =>
    obtain ⟨-, rfl⟩ := Prod.mk.inj (Option.some.inj he)
    refine ⟨fun other data hget => hi.stored other data ?_, hi.read⟩
    rw [Table.get?_erase] at hget
    split at hget
    · cases hget
    · exact hget
  | storageUploadFile path jobId =>
    rcases World.exec_upload he with ⟨-, rfl⟩ | ⟨-, rfl⟩
    · exact hi
    · exact ⟨stored_put (fun _ => rfl) hi, hi.read⟩
  | _ => exact hquiet rfl fun _ _ => Call.noConfusion

theorem inv_occur {v : Event} {w w' : World} (he : World.occur v w = some w') (hi : Inv w) :
    Inv w' := by
  cases World.occurred_of_occur he with
  | put data hissued => exact ⟨stored_put (fun _ => rfl) hi, hi.read⟩
  | _ => exact ⟨hi.stored, hi.read⟩

/-- The last replacement after a listing is what was read; without one it is what was listed. -/
theorem read_after_listing {newer since before : List Entry} {objectPath : String}
    {data accepted : Bytes}
    (h : Faithful (newer ++ .opened .extraction objectPath data ::
      (since ++ .opened .listing objectPath accepted :: before))) :
    data = (lastPut objectPath since).getD accepted := by
  have hdata := h.read
  have haccepted : lastPut objectPath before = some accepted := h.tail.2.read
  rw [lastPut_append] at hdata
  have hbefore : lastPut objectPath (.opened .listing objectPath accepted :: before) =
      some accepted := haccepted
  rw [hbefore] at hdata
  cases hsince : lastPut objectPath since with
  | none =>
    rw [hsince] at hdata
    exact (Option.some.inj hdata).symm
  | some replacement =>
    rw [hsince] at hdata
    exact (Option.some.inj hdata).symm

theorem passes_iff_keptValid {D : Deployment} {log : List Entry} {objectPath : String}
    {data : Bytes} (hlog : Faithful log)
    (hextracted : Provenance.ExtractedAfterCheck D objectPath data log) :
    Passes D data ↔ KeptValid D objectPath data log := by
  constructor
  · intro hpass
    obtain ⟨newer, older, accepted, rfl, hlisted, haccepted⟩ := hextracted
    obtain ⟨since, before, rfl⟩ := List.append_of_mem hlisted
    refine ⟨newer, since, before, accepted, rfl, haccepted, fun replacement hput => ?_⟩
    have hdata := read_after_listing hlog
    rw [hput, Option.getD_some] at hdata
    rwa [← hdata]
  · rintro ⟨newer, since, before, accepted, rfl, haccepted, hreplaced⟩
    rw [read_after_listing hlog]
    cases hput : lastPut objectPath since with
    | none => exact haccepted
    | some replacement => exact hreplaced replacement hput

end ExtractedArchives

open ExtractedArchives

/-- However client writes fall between the reads of the backend and those of the worker: what is
extracted for a job passes the checks if and only if the object was not replaced after a listing
that had passed them, or was replaced last by an archive that passes them too. -/
theorem extracted_passes_iff (D : Deployment) {w : World} {ls : List SysLabel}
    {rs : List SysRecord} {c : SysConf} (hjobs : w.jobs = Table.empty)
    (hobjects : w.objects = Table.empty) (hlog : w.log = []) (hl : ∀ l ∈ ls, Submitted l)
    (hr : D.system.run (.initial w) ls = some (rs, c)) :
    ∀ r ∈ rs, ∀ jobId data, r.call = .extractAll jobId data →
      ∃ time created, .wrote time none created ∈ r.before.log ∧ created.id = jobId ∧
        (Passes D data ↔ KeptValid D created.sourceRef data r.before.log) := by
  have hdirect : ∀ r ∈ rs, r.op.direct = false := by
    refine Machine.run_op hr (fun op h => hl _ h) (fun op xs h => (hl _ h).elim) ?_ nofun nofun
    exact fun op h => Op.direct_of_threaded h
  have hknown := (Provenance.run hjobs hl hr hdirect).1
  have hinitial : Inv w := by
    constructor
    · rw [hobjects]
      exact nofun
    · rw [hlog]
      trivial
  have hstep : ∀ r ∈ rs, Inv r.before → Inv r.after := by
    intro r hmem hi
    obtain ⟨-, -, o, a, he⟩ := hknown r hmem
    exact inv_exec he hi
  have hstates := Machine.run_states hr hstep (fun v w w' => inv_occur) hinitial
  intro r hmem jobId data hcall
  obtain ⟨-, hpre, -⟩ := hknown r hmem
  rw [hcall] at hpre
  obtain ⟨-, job, hjob, rfl, hextracted⟩ := hpre
  obtain ⟨time, created, hwrote, hsame⟩ := hjob.origin
  refine ⟨time, created, hwrote, hsame.id.symm, ?_⟩
  rw [← hsame.sourceRef]
  exact passes_iff_keptValid (hstates.1 r hmem).read hextracted

namespace ExtractedArchives

/-- An archive is uploaded and confirmed, and while the upload link is still valid the client
puts another one in its place. The worker starts the job. -/
def replaced (data : Bytes) : List SysLabel :=
  [.spawn (.createUploadTarget "user" (some "up")), .serve 0 {},
    .event (.clientPut "uploads/user/up.zip" [0]),
    .spawn (.confirmZipUpload "user" "up" .act 100)] ++
  List.replicate 9 (.serve 1 { text := "j" }) ++
  .event (.clientPut "uploads/user/up.zip" data) ::
    .start .pollerTick :: List.replicate 14 (.work { text := "c" })

theorem submitted_replaced (data : Bytes) : ∀ l ∈ replaced data, Submitted l := by
  simp [replaced, Submitted, Op.direct]

def extracts (data : Bytes) (r : SysRecord) : Bool :=
  match r.call with
  | .extractAll _ extracted => extracted = data
  | _ => false

theorem call_of_extracts {data : Bytes} {r : SysRecord} (h : extracts data r = true) :
    ∃ jobId, r.call = .extractAll jobId data := by
  unfold extracts at h
  split at h
  · rename_i jobId extracted hcall
    rw [of_decide_eq_true h] at hcall
    exact ⟨jobId, hcall⟩
  · cases h

/-- A data file of a tebibyte. -/
theorem not_passes_bomb : ¬ Passes .camera [40] := by
  rintro ⟨entries, hlist, -, hbomb⟩
  obtain rfl := Except.ok.inj hlist
  revert hbomb
  decide

end ExtractedArchives

/-- A decompression bomb in the place of the archive that was confirmed is extracted. -/
theorem extracted_passes_fails : ¬ ∀ (ls : List SysLabel) (rs : List SysRecord) (c : SysConf),
    (∀ l ∈ ls, Submitted l) → Deployment.camera.system.run (.initial .sample) ls = some (rs, c) →
    ∀ r ∈ rs, ∀ jobId data, r.call = .extractAll jobId data → Passes .camera data := by
  intro h
  have hrun : (Deployment.camera.system.run (.initial .sample) (replaced [40])).any (fun out =>
      out.1.any (extracts [40])) = true := by rfl
  obtain ⟨⟨rs, c⟩, hr, hany⟩ := (Option.any_eq_true _ _).mp hrun
  obtain ⟨r, hmem, hextracts⟩ := List.any_eq_true.mp hany
  obtain ⟨jobId, hcall⟩ := call_of_extracts hextracts
  exact not_passes_bomb (h _ rs c (submitted_replaced [40]) hr r hmem jobId [40] hcall)

theorem extracted_passes_iff_replaced : ∃ rs c,
    Deployment.camera.system.run (.initial .sample) (replaced [1]) = some (rs, c) ∧
      ∃ r ∈ rs, ∃ jobId, r.call = .extractAll jobId [1] ∧
      ∃ time created, .wrote time none created ∈ r.before.log ∧ created.id = jobId ∧
        (Passes .camera [1] ↔ KeptValid .camera created.sourceRef [1] r.before.log) := by
  have hrun : (Deployment.camera.system.run (.initial .sample) (replaced [1])).any (fun out =>
      out.1.any (extracts [1])) = true := by rfl
  obtain ⟨⟨rs, c⟩, hr, hany⟩ := (Option.any_eq_true _ _).mp hrun
  obtain ⟨r, hmem, hextracts⟩ := List.any_eq_true.mp hany
  obtain ⟨jobId, hcall⟩ := call_of_extracts hextracts
  have hiff := extracted_passes_iff .camera rfl rfl rfl (submitted_replaced [1]) hr r hmem jobId [1]
    hcall
  exact ⟨rs, c, hr, r, hmem, jobId, hcall, hiff⟩

end TrainVla
