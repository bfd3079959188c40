import TrainVla.System.Soundness
import TrainVla.System.JobWrites

/-! Where the data of a job comes from. What every job document says about objects is borne out
by the history, whatever the parties interrupt each other at. -/
namespace TrainVla

open Interaction Store

/-- The history bears out what a job document says: it was created, the archive it refers to was
listed and passed the checks, and its checkpoint was uploaded. -/
structure Provenance (D : Deployment) (log : List Entry) (job : Job) : Prop where
  origin : ∃ time first, .wrote time none first ∈ log ∧ job.SameOrigin first
  source : job.sourceType = .zipUpload → ∃ uploadId data,
    job.sourceRef = UploadService.objectPath job.userId uploadId ∧
    .opened .listing job.sourceRef data ∈ log ∧ Passes D data
  checkpoint : job.status = .completed →
    job.checkpointGcsPath = some (JobCompletion.checkpointPath job.id) ∧
    ∃ data, .uploaded (JobCompletion.checkpointPath job.id) job.id data ∈ log

namespace Provenance

variable {D : Deployment} {log log' : List Entry} {job seen new : Job}

theorem mono (h : Provenance D log job) (hsuffix : log <:+ log') : Provenance D log' job where
  origin := by
    obtain ⟨time, first, hwrote, hsame⟩ := h.origin
    exact ⟨time, first, hsuffix.subset hwrote, hsame⟩
  source hzip := by
    obtain ⟨uploadId, data, href, hopened, hpass⟩ := h.source hzip
    exact ⟨uploadId, data, href, hsuffix.subset hopened, hpass⟩
  checkpoint hdone := by
    obtain ⟨hpath, data, huploaded⟩ := h.checkpoint hdone
    exact ⟨hpath, data, hsuffix.subset huploaded⟩

/-- A rewrite of a document, made from one that the history bears out. -/
theorem write {op : Op} {st st' : Stage} {now : ℤ} (h : Provenance D log seen)
    (hw : JobWrite op st seen now st' new)
    (hdone : new.status = .completed →
      ∃ data, .uploaded (JobCompletion.checkpointPath new.id) new.id data ∈ log) :
    Provenance D log new where
  origin := by
    obtain ⟨time, first, hwrote, hsame⟩ := h.origin
    exact ⟨time, first, hwrote, hw.sameOrigin.trans hsame⟩
  source hzip := by
    have hsame := hw.sameOrigin
    rw [hsame.sourceRef, hsame.userId]
    exact h.source (hsame.sourceType.symm.trans hzip)
  checkpoint hcompleted := by
    refine ⟨?_, hdone hcompleted⟩
    have hactive := hw.active
    -- the only write that completes a job sets the path, and none keeps it completed
    cases hw with
    | complete _ => rfl
    | requestCancel _ _ =>
      have hstatus : seen.status = .completed := hcompleted
      rw [hstatus] at hactive
      exact absurd hactive (by decide)
    | recordContainer hs => exact absurd (hs.symm.trans hcompleted) (by decide)
    | recordProgress hs => exact absurd (hs.symm.trans hcompleted) (by decide)
    | markAlive hs => exact absurd (hs.symm.trans hcompleted) (by decide)
    | _ => cases hcompleted

/-- A submission creates a job for the archive that it has listed. -/
theorem create {user : User} {owned : List Job} {today now : ℤ}
    (hnew : NewJob user owned today now job)
    (hsource : job.sourceType = .zipUpload → ∃ uploadId data,
      job.sourceRef = UploadService.objectPath job.userId uploadId ∧
      .opened .listing job.sourceRef data ∈ log ∧ Passes D data) (time : ℤ) :
    Provenance D (.wrote time none job :: log) job where
  origin := ⟨time, job, List.mem_cons_self .., .rfl⟩
  source hzip := by
    obtain ⟨uploadId, data, href, hopened, hpass⟩ := hsource hzip
    exact ⟨uploadId, data, href, List.mem_cons_of_mem _ hopened, hpass⟩
  checkpoint hcompleted := by
    have hstatus := hnew.status_eq
    rw [hcompleted] at hstatus
    cases hstatus

/-- An object was opened to be extracted after a listing of it had passed the checks. -/
def ExtractedAfterCheck (D : Deployment) (objectPath : String) (data : Bytes) (log : List Entry) :
    Prop :=
  ∃ newer older accepted, log = newer ++ .opened .extraction objectPath data :: older ∧
    .opened .listing objectPath accepted ∈ older ∧ Passes D accepted

/-- Every stored document, and every document that is held, is borne out by the history. No
operation but the requests creates jobs. -/
def protocol (D : Deployment) : Protocol where
  inv w := ∀ job ∈ w.jobs, Provenance D w.log job
  rely _ w w' := w.log <:+ w'.log
  cond op _ _ := op.direct = false
  holds _ f w :=
    match f with
    | .job _ job => Provenance D w.log job
    | .listed objectPath data => .opened .listing objectPath data ∈ w.log
    | .extracting objectPath data => ExtractedAfterCheck D objectPath data w.log
    | .uploaded jobId => ∃ data, .uploaded (JobCompletion.checkpointPath jobId) jobId data ∈ w.log
    | _ => True

theorem holds_mono {op : Op} {f : Fact} {w w' : World} (h : w.log <:+ w'.log)
    (hf : (protocol D).holds op f w) : (protocol D).holds op f w' := by
  cases f with
  | job st job => exact mono hf h
  | listed objectPath data => exact h.subset hf
  | extracting objectPath data =>
    obtain ⟨newer, older, accepted, hlog, hlisted, hpass⟩ := hf
    obtain ⟨newest, hnewest⟩ := h
    refine ⟨newest ++ newer, older, accepted, ?_, hlisted, hpass⟩
    rw [← hnewest, hlog, List.append_assoc]
  | uploaded jobId =>
    obtain ⟨data, hdata⟩ := hf
    exact ⟨data, h.subset hdata⟩
  | _ => trivial

/-- The documents that a write leaves behind. -/
theorem inv_put {w : World} {job : Job} {entry : Entry} (hi : (protocol D).inv w)
    (hjob : Provenance D (entry :: w.log) job) :
    ∀ other ∈ w.jobs.put job, Provenance D (entry :: w.log) other := by
  have hsuffix : w.log <:+ entry :: w.log := List.suffix_cons entry w.log
  intro other hother
  rcases Table.mem_put.mp hother with rfl | ⟨hother, -⟩
  · exact hjob
  · exact (hi other hother).mono hsuffix

theorem valid : (protocol D).Valid D where
  preorders := ⟨fun _ _ => List.suffix_rfl, fun _ _ _ _ h₁ h₂ => h₁.trans h₂⟩
  stable _ _ _ _ hrely _ hf := holds_mono hrely hf
  survive _ _ _ _ _ _ _ _ _ _ he _ hf := holds_mono (World.exec_frame he).suffix hf
  learn op o w c r w' fs f hi hpre _ he hl hfs := by
    -- a document that was held before is held in another stage
    have hheld : ∀ {st st' job}, .job st job ∈ fs → (protocol D).holds op (.job st' job) w' :=
      fun {st st' job} hmem => holds_mono (f := .job st job) (World.exec_frame he).suffix (hfs _ hmem)
    cases hl with
    | got =>
      obtain ⟨hget, rfl⟩ := Prod.mk.inj (Option.some.inj he)
      exact hi _ (Table.mem_of_get? hget)
    | found hmem =>
      obtain ⟨rfl, rfl⟩ := Prod.mk.inj (Option.some.inj he)
      exact hi _ (JobTable.mem_listByStatuses.mp hmem).1
    | next =>
      obtain ⟨hjobs, rfl⟩ := Prod.mk.inj (Option.some.inj he)
      exact hi _ (JobTable.mem_listByStatuses.mp (hjobs ▸ List.mem_cons_self ..)).1
    | listed =>
      obtain ⟨-, rfl⟩ := World.exec_open he
      exact List.mem_cons_self ..
    | extracting =>
      obtain ⟨-, rfl⟩ := World.exec_open he
      obtain ⟨-, job, hjob, hzip, rfl⟩ := hpre
      obtain ⟨uploadId, accepted, -, hlisted, hpass⟩ := hjob.source hzip
      exact ⟨[], w.log, accepted, rfl, hlisted, hpass⟩
    | uploaded =>
      rcases World.exec_upload he with ⟨⟨e, herror⟩, -⟩ | ⟨-, rfl⟩
      · cases herror
      · exact ⟨_, List.mem_cons_self ..⟩
    | wrote h hjob _ _ =>
      obtain rfl := World.exec_jobsUpdate he
      obtain ⟨st, now, st', hw, hseen, -, -, -, hdone⟩ := hpre
      exact (write hseen hw hdone).mono (List.suffix_cons ..)
    | owned => exact hheld (List.mem_singleton_self _)
    | charged => exact hheld (List.mem_singleton_self _)
    | launched _ => exact hheld (List.mem_singleton_self _)
    | refused _ => exact hheld (List.mem_singleton_self _)
    | killed _ => exact hheld (List.mem_singleton_self _)
    | sawProgress _ => exact hheld (List.mem_singleton_self _)
    | sawNoContainer _ _ => exact hheld (List.mem_singleton_self _)
    | polled _ => exact hheld (List.mem_singleton_self _)
    | _ => trivial

theorem sound {permit : SysLabel → Prop} : (protocol D).Sound D permit where
  toValid := valid
  exec op o w c r w' hi hpre hc he := by
    have hsuffix := (World.exec_frame he).suffix
    refine ⟨?_, fun op' _ => hsuffix⟩
    have hframe : c.writesJobs = false → (protocol D).inv w' := by
      intro hjobs job hjob
      rw [(World.exec_frame he).jobs hjobs] at hjob
      exact (hi job hjob).mono hsuffix
    cases c with
    | jobsCreate job =>
      obtain ⟨rfl, hfresh⟩ := World.exec_jobsCreate he
      obtain ⟨-, user, owned, today, now, hnew, -, -, -, hlisted, -, hpath⟩ := hpre
      unfold World.writeJob
      rw [hfresh]
      refine inv_put hi (create hnew (fun hzip => ?_) w.clock)
      obtain ⟨data, hopened, hpass⟩ := hlisted hc hzip
      obtain ⟨uploadId, policy, trainingSteps, -, href⟩ := hpath hc hzip
      exact ⟨uploadId, data, href, hopened, hpass⟩
    | jobsUpdate seen new =>
      obtain rfl := World.exec_jobsUpdate he
      obtain ⟨st, now, st', hw, hseen, -, -, -, hdone⟩ := hpre
      exact inv_put hi ((write hseen hw hdone).mono (List.suffix_cons ..))
    | _ => exact hframe rfl
  occur v w w' _ hi he := by
    have hsuffix := World.occur_suffix he
    refine ⟨fun job hjob => ?_, fun op' _ => hsuffix⟩
    rw [(World.occur_frame he).1] at hjob
    exact (hi job hjob).mono hsuffix

/-- Runs from a world without jobs. -/
theorem run {permit : SysLabel → Prop} {w : World} {ls : List SysLabel} {rs : List SysRecord}
    {c : SysConf} (hjobs : w.jobs = Table.empty) (hl : ∀ l ∈ ls, permit l)
    (hr : D.system.run (.initial w) ls = some (rs, c))
    (hdirect : ∀ r ∈ rs, r.op.direct = false) :
    (∀ r ∈ rs, r.Known D.system ((protocol D).outline D)) ∧
      ∀ job ∈ c.state.jobs, Provenance D c.state.log job := by
  have hi : (protocol D).inv w := by
    intro job hjob
    rw [hjobs] at hjob
    exact absurd hjob (Table.not_mem_empty job)
  have hsound : ((protocol D).outline D).Sound D.system permit (protocol D).post :=
    sound.outline fun _ _ _ => trivial
  obtain ⟨hknown, hgood⟩ := hsound.run (.initial hi) hl hr fun r hmem _ => hdirect r hmem
  exact ⟨hknown, hgood.inv⟩

end Provenance

end TrainVla
