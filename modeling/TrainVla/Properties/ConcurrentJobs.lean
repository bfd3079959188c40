import TrainVla.System.JobProtocol
import TrainVla.System.JobWrites

/-! Each user has at most one active job, as long as requests that submit one do not overlap
between the listing of the jobs and the creation of the new one. -/
namespace TrainVla

open Interaction Store

namespace ConcurrentJobs

/-- No user has more active jobs than the limit allows. -/
def WithinLimit (jobs : JobTable) : Prop :=
  ∀ userId, countActive (jobs.listForUser userId) ≤ maxConcurrentJobs

/-- A request lists the jobs of its user, and then it takes the slot of the user. -/
def slot : Lookup Call String where
  looks
    | .jobsListForUser userId => some userId
    | _ => none
  takes
    | .jobsCreate job => some job.userId
    | _ => none

/-- An update that leaves its job active is not out of date: the job has not ended since it was
read. -/
def Current (jobs : JobTable) : Call → Prop
  | .jobsUpdate _ new => new.status.Active → ∀ stored ∈ jobs.get? new.id, stored.status.Active
  | _ => True

/-- The user has no active job. -/
def Free (userId : String) (w : World) : Prop := countActive (w.jobs.listForUser userId) = 0

/-- The same limit, job by job. -/
def OnePerOwner (jobs : JobTable) : Prop :=
  ∀ a ∈ jobs, ∀ b ∈ jobs, a.status.Active → b.status.Active → a.userId = b.userId → a = b

theorem mem_active {jobs : JobTable} {userId : String} {job : Job} :
    job ∈ (jobs.listForUser userId).filter (fun job => job.status ∈ activeStatuses) ↔
      job ∈ jobs ∧ job.userId = userId ∧ job.status.Active := by
  rw [List.mem_filter, JobTable.mem_listForUser, decide_eq_true_eq, and_assoc]
  rfl

theorem countActive_listForUser_eq_zero {jobs : JobTable} {userId : String} :
    countActive (jobs.listForUser userId) = 0 ↔
      ∀ job ∈ jobs, job.userId = userId → ¬ job.status.Active := by
  rw [countActive_eq_zero]
  constructor
  · intro h job hjob huser
    exact h job (JobTable.mem_listForUser.mpr ⟨hjob, huser⟩)
  · intro h job hjob
    obtain ⟨hmem, huser⟩ := JobTable.mem_listForUser.mp hjob
    exact h job hmem huser

theorem withinLimit_iff {jobs : JobTable} : WithinLimit jobs ↔ OnePerOwner jobs := by
  constructor
  · intro h a ha b hb hactive hactive' howner
    have hmem := mem_active.mpr ⟨ha, howner, hactive⟩
    have hmem' := mem_active.mpr ⟨hb, rfl, hactive'⟩
    have hle := h b.userId
    unfold countActive maxConcurrentJobs at hle
    obtain ⟨i, hi⟩ := List.mem_iff_getElem?.mp hmem
    obtain ⟨j, hj⟩ := List.mem_iff_getElem?.mp hmem'
    have hi' := (List.getElem?_eq_some_iff.mp hi).1
    have hj' := (List.getElem?_eq_some_iff.mp hj).1
    have hij : i = j := by omega
    rw [hij, hj] at hi
    exact (Option.some.inj hi).symm
  · intro h userId
    have hnodup : ((jobs.listForUser userId).filter fun job => job.status ∈ activeStatuses).Nodup :=
      ((jobs.nodup.of_map Job.id).filter _).filter _
    unfold countActive maxConcurrentJobs
    by_contra hlt
    have heq := h _ (mem_active.mp (List.getElem_mem (Nat.lt_of_not_le hlt))).1
      _ (mem_active.mp (List.getElem_mem (Nat.lt_trans Nat.zero_lt_one (Nat.lt_of_not_le hlt)))).1
    have h₁ := mem_active.mp (List.getElem_mem (Nat.lt_of_not_le hlt))
    have h₀ := mem_active.mp (List.getElem_mem (Nat.lt_trans Nat.zero_lt_one (Nat.lt_of_not_le hlt)))
    have hsame := heq h₁.2.2 h₀.2.2 (h₁.2.1.trans h₀.2.1.symm)
    rw [hnodup.getElem_inj_iff] at hsame
    omega

def OwnerKept (old new : Job) : Prop := new.userId = old.userId

/-- Whoever holds a document knows whose job it is. -/
def protocol : JobProtocol where
  inv _ := True
  rely _ := Table.Evolves OwnerKept
  cond _ _ _ := True
  knows _ _ seen jobs := Table.Copy OwnerKept seen jobs

theorem OwnerKept.rfl (job : Job) : OwnerKept job job := Eq.refl _

theorem OwnerKept.trans (a b c : Job) (h₁ : OwnerKept a b) (h₂ : OwnerKept b c) : OwnerKept a c :=
  Eq.trans h₂ h₁

theorem sound : protocol.Sound where
  refl _ _ := .rfl .rfl
  trans _ _ _ _ := .trans .trans
  stable _ _ _ _ _ hrely _ hk := hk.evolve hrely .trans
  found _ _ _ _ _ _ hmem := .of_mem .rfl hmem
  promote _ _ _ _ _ _ hk := hk
  wrote op st seen now st' new jobs _ hw hk _ := by
    refine ⟨trivial, .put_self .rfl jobs new,
      fun _ hjob hne => hjob.put_of_ne hne, fun op' _ => Table.evolves_put .rfl fun old hold => ?_⟩
    have howner : OwnerKept seen old := Table.Copy.stored hk hw.id_eq hold
    exact hw.sameOrigin.userId.trans howner.symm
  created _ _ _ _ _ _ _ _ _ hfresh _ := ⟨trivial, fun _ => Table.evolves_put_fresh .rfl hfresh⟩

/-- A write into a slot that is free, or that its own job has taken already. -/
theorem onePerOwner_put {jobs : JobTable} {new : Job} (h : OnePerOwner jobs)
    (hfree : new.status.Active → ∀ job ∈ jobs, job.id ≠ new.id → job.userId = new.userId →
      ¬ job.status.Active) : OnePerOwner (jobs.put new) := by
  intro a ha b hb hactive hactive' howner
  rcases Table.mem_put.mp ha with hanew | ⟨ha, hida⟩
  · rcases Table.mem_put.mp hb with hbnew | ⟨hb, hidb⟩
    · rw [hanew, hbnew]
    · rw [hanew] at hactive howner
      exact absurd hactive' (hfree hactive b hb hidb howner.symm)
  · rcases Table.mem_put.mp hb with hbnew | ⟨hb, hidb⟩
    · rw [hbnew] at hactive' howner
      exact absurd hactive (hfree hactive' a ha hida howner)
    · exact h a ha b hb hactive hactive' howner

/-- A write of an active job that leaves its owner as it is. -/
theorem onePerOwner_rewrite {jobs : JobTable} {seen new : Job} (h : OnePerOwner jobs)
    (hseen : jobs.get? new.id = some seen) (hactive : seen.status.Active)
    (howner : new.userId = seen.userId) : OnePerOwner (jobs.put new) := by
  refine onePerOwner_put h fun _ job hjob hid hsame hjobActive => ?_
  have heq := h job hjob seen (Table.mem_of_get? hseen) hjobActive hactive (hsame.trans howner)
  rw [heq] at hid
  exact hid (Table.key_of_get? hseen)

/-- A new job, whose owner has no active one. -/
theorem onePerOwner_create {jobs : JobTable} {job : Job} (h : OnePerOwner jobs)
    (hfree : countActive (jobs.listForUser job.userId) = 0) : OnePerOwner (jobs.put job) :=
  onePerOwner_put h fun _ other hother _ howner =>
    countActive_listForUser_eq_zero.mp hfree other hother howner

/-- A write of a job that is not active. -/
theorem onePerOwner_ended {jobs : JobTable} {new : Job} (h : OnePerOwner jobs)
    (hended : ¬ new.status.Active) : OnePerOwner (jobs.put new) :=
  onePerOwner_put h fun hactive => absurd hactive hended

section

variable {D : Deployment} {r : SysRecord}

/-- The stored job that an update replaces has the same owner. -/
theorem replaced {op : Op} {st st' : Stage} {seen new : Job} {now : ℤ} {jobs : JobTable}
    (hw : JobWrite op st seen now st' new) (hk : protocol.knows op st seen jobs) :
    ∃ stored, jobs.get? new.id = some stored ∧ new.userId = stored.userId := by
  obtain ⟨stored, hget, howner⟩ := hk
  exact ⟨stored, by rw [hw.id_eq, hget], hw.sameOrigin.userId.trans howner.symm⟩

/-- One call that finds the slot of a new job free, and is not out of date. -/
theorem onePerOwner_exec (hr : r.Known D.system (protocol.toProtocol.outline D))
    (hfree : ∀ userId, slot.takes r.call = some userId → Free userId r.before)
    (hcurrent : Current r.before.jobs r.call) (h : OnePerOwner r.before.jobs) :
    OnePerOwner r.after.jobs := by
  obtain ⟨-, hpre, o, a, he⟩ := hr
  obtain ⟨op, before, call, after⟩ := r
  have he : World.exec D.steady o before call = some (a, after) := he
  have hframe : call.writesJobs = false → OnePerOwner after.jobs := by
    intro hc
    rw [(World.exec_frame he).jobs hc]
    exact h
  cases call with
  | jobsCreate job =>
    obtain ⟨rfl, -⟩ := World.exec_jobsCreate he
    exact onePerOwner_create h (hfree job.userId rfl)
  | jobsUpdate seen new =>
    obtain rfl := World.exec_jobsUpdate he
    obtain ⟨st, now, st', hw, hk, -⟩ := hpre
    obtain ⟨stored, hstored, howner⟩ := replaced hw hk
    by_cases hactive : new.status.Active
    · exact onePerOwner_rewrite h hstored (hcurrent hactive stored hstored) howner
    · exact onePerOwner_ended h hactive
  | _ => exact hframe rfl

/-- A slot that is free stays so until a job of its user is created. -/
theorem free_exec (hr : r.Known D.system (protocol.toProtocol.outline D)) {userId : String}
    (hcurrent : Current r.before.jobs r.call) (htakes : slot.takes r.call ≠ some userId)
    (h : Free userId r.before) : Free userId r.after := by
  obtain ⟨-, hpre, o, a, he⟩ := hr
  obtain ⟨op, before, call, after⟩ := r
  have he : World.exec D.steady o before call = some (a, after) := he
  have hzero := countActive_listForUser_eq_zero.mp h
  have hframe : call.writesJobs = false → Free userId after := by
    intro hc
    unfold Free
    rw [(World.exec_frame he).jobs hc]
    exact h
  cases call with
  | jobsCreate job =>
    obtain ⟨rfl, -⟩ := World.exec_jobsCreate he
    refine countActive_listForUser_eq_zero.mpr fun other hother howner => ?_
    rcases Table.mem_put.mp hother with rfl | ⟨hold, -⟩
    · exact absurd (congrArg some howner) htakes
    · exact hzero other hold howner
  | jobsUpdate seen new =>
    obtain rfl := World.exec_jobsUpdate he
    obtain ⟨st, now, st', hw, hk, -⟩ := hpre
    obtain ⟨stored, hstored, hsame⟩ := replaced hw hk
    refine countActive_listForUser_eq_zero.mpr fun other hother howner hactive => ?_
    rcases Table.mem_put.mp hother with rfl | ⟨hold, -⟩
    · -- the job was active before
      exact hzero stored (Table.mem_of_get? hstored) (hsame.symm.trans howner)
        (hcurrent hactive stored hstored)
    · exact hzero other hold howner hactive
  | _ => exact hframe rfl

end

/-! What a request does before it takes the slot. -/

/-- The calls that a request may make before it has found the slot free. -/
def Waits (userId : String) (op : Op) (c : Call) : Prop :=
  op.submits = true → slot.takes c ≠ some userId

/-- The calls that take no slot at all. -/
def Takeless (c : Call) : Prop := slot.takes c = none

section

variable {D : Deployment} {userId caller : String} {op : Op}

theorem waits_of_takeless {c : Call} (h : Takeless c) : Waits userId op c := by
  intro _ htakes
  rw [h] at htakes
  cases htakes

/-- A part of a request that takes no slot. -/
theorem gated_within {α : Type} {p : Service α} (hp : p.Within Takeless) :
    Gated (World.exec D.steady) (slot.gate Free Waits userId) op p :=
  .of_within hp fun _ => waits_of_takeless

/-- A job is created after the jobs of its user were listed and none of them was active: otherwise
the quota check refuses. -/
theorem gated_createJob {policy : PolicyType} {sourceType : SourceType} {sourceRef : String}
    {trainingSteps : ℤ} : Gated (World.exec D.steady) (slot.gate Free Waits userId) op
      (JobService.createJob caller policy sourceType sourceRef trainingSteps) := by
  unfold JobService.createJob
  dsimp only
  split
  · trivial
  refine Gated.perform (waits_of_takeless rfl) fun _ _ user _ _ => .inr ?_
  cases user with
  | none => trivial
  | some user =>
    refine Gated.perform (waits_of_takeless rfl) fun o w owned w' he => ?_
    obtain ⟨rfl, rfl⟩ := Prod.mk.inj (Option.some.inj he)
    by_cases hfree : caller = userId ∧ Free userId w
    · exact .inl ⟨congrArg some hfree.1, hfree.2⟩
    right
    refine Gated.perform (waits_of_takeless rfl) fun _ _ today _ _ => .inr ?_
    split
    · trivial
    rename_i hallowed
    have hzero : countActive (w.jobs.listForUser caller) = 0 :=
      (canCreateJob_allowed.mp (by simpa using hallowed)).1
    have hother : caller ≠ userId := by
      rintro rfl
      exact hfree ⟨rfl, hzero⟩
    refine Gated.perform (waits_of_takeless rfl) fun _ _ now _ _ => .inr ?_
    refine Gated.perform (waits_of_takeless rfl) fun _ _ id _ _ => .inr ?_
    exact Gated.perform (fun _ htakes => hother (Option.some.inj htakes)) fun _ _ _ _ _ => .inr trivial

theorem within_readZipEntries (lib : Library) (objectPath : String) :
    (UploadService.readZipEntries lib objectPath).Within Takeless :=
  .perform rfl fun _ => .bind (.ofExcept _) fun _ => .ofExcept _

theorem within_readInfoJson (lib : Library) (objectPath : String) :
    (UploadService.readInfoJson lib objectPath).Within Takeless := by
  refine .bind (.perform rfl fun _ => .bind (.ofExcept _) fun _ => ?_) fun _ => .ofExcept _
  exact .bind (.ofExcept _) fun _ => .ofExcept _

theorem within_readRepoInfoJson (lib : Library) (repoId : String) :
    (UploadService.readRepoInfoJson lib repoId).Within Takeless :=
  .perform rfl fun _ => .bind (.ofExcept _) fun _ => .ofExcept _

theorem within_reject {α : Type} (objectPath : String) (errorMessage : Option String) :
    (UploadService.reject objectPath errorMessage : Service α).Within Takeless :=
  .perform rfl fun _ => .raise _

theorem gated_confirmContent {lib : Library} {objectPath : String} {policy : PolicyType}
    {trainingSteps : ℤ} : Gated (World.exec D.steady) (slot.gate Free Waits userId) op
      (UploadService.confirmContent lib caller objectPath policy trainingSteps) := by
  unfold UploadService.confirmContent
  apply Gated.bind (gated_within (within_readInfoJson _ _).attempt)
  intro info
  split
  · exact gated_within (within_reject _ _)
  · exact gated_within (within_reject _ _)
  · exact gated_within (within_reject _ _)
  · trivial
  · apply Gated.bind (.ofExcept _)
    intro shapeResult
    split
    · exact gated_within (within_reject _ _)
    · exact gated_createJob

theorem gated_confirmZipUpload {lib : Library} {limits : ValidationLimits} {uploadId : String}
    {policy : PolicyType} {trainingSteps : ℤ} :
    Gated (World.exec D.steady) (slot.gate Free Waits userId) op
      (UploadService.confirmZipUpload lib limits caller uploadId policy trainingSteps) := by
  unfold UploadService.confirmZipUpload
  dsimp only
  refine Gated.perform (waits_of_takeless rfl) fun _ _ present _ _ => .inr ?_
  split
  · trivial
  apply Gated.bind (gated_within (within_readZipEntries _ _).attempt)
  intro entries
  split
  · exact gated_within (within_reject _ _)
  · trivial
  · split
    · exact gated_within (within_reject _ _)
    split
    · exact gated_within (within_reject _ _)
    · exact gated_confirmContent

theorem gated_submitHfDataset {lib : Library} {repoId : String} {policy : PolicyType}
    {trainingSteps : ℤ} : Gated (World.exec D.steady) (slot.gate Free Waits userId) op
      (UploadService.submitHfDataset lib caller repoId policy trainingSteps) := by
  unfold UploadService.submitHfDataset
  refine Gated.perform (waits_of_takeless rfl) fun _ _ present _ _ => .inr ?_
  split
  · trivial
  refine Gated.perform (waits_of_takeless rfl) fun _ _ files _ _ => .inr ?_
  apply Gated.bind (.ofExcept _)
  intro entryNames
  dsimp only
  split
  · trivial
  apply Gated.bind (gated_within (within_readRepoInfoJson _ _).attempt)
  intro info
  split
  · trivial
  · trivial
  · trivial
  · apply Gated.bind (.ofExcept _)
    intro shapeResult
    split
    · trivial
    · exact gated_createJob

/-- Every operation begins at the gate. Those that submit nothing never come to a new job. -/
theorem gated_code (op : Op) :
    Gated (World.exec D.steady) (slot.gate Free Waits userId) op (Op.code D op) := by
  have hnever : op.submits = false →
      Gated (World.exec D.steady) (slot.gate Free Waits userId) op (Op.code D op) := by
    intro hop
    refine Gated.of_harmless (fun c hsubmits => ?_) _
    rw [hop] at hsubmits
    cases hsubmits
  cases op with
  | createJob caller policy sourceType sourceRef trainingSteps =>
    exact Gated.bind gated_createJob fun _ => trivial
  | confirmZipUpload caller uploadId policy trainingSteps =>
    exact Gated.bind gated_confirmZipUpload fun _ => trivial
  | submitHfDataset caller repoId policy trainingSteps =>
    exact Gated.bind gated_submitHfDataset fun _ => trivial
  | _ => exact hnever rfl

/-- Only requests that submit a job take a slot. -/
theorem submits_of_takes {r : SysRecord} (hr : r.Known D.system (protocol.toProtocol.outline D))
    (htakes : slot.takes r.call = some userId) :
    r.op.threaded = false ∧ ¬ Waits userId r.op r.call := by
  obtain ⟨-, hpre, -⟩ := hr
  obtain ⟨op, before, call, after⟩ := r
  cases call with
  | jobsCreate job =>
    have hsubmits : op.submits = true := hpre.1
    exact ⟨Op.not_threaded_of_submits hsubmits, fun hwaits => hwaits hsubmits htakes⟩
  | _ => cases htakes

end

end ConcurrentJobs

open ConcurrentJobs

/-- In every interleaving of single calls from a table within the limit, every state is within it,
if no job is created between the listing of another request of its user and the creation that
follows, and no update that leaves its job active is out of date. -/
theorem active_jobs_within_limit (D : Deployment) {w : World} {ls : List SysLabel}
    {rs : List SysRecord} {c : SysConf} (hw : WithinLimit w.jobs) (hl : ∀ l ∈ ls, Interleaved l)
    (hr : D.system.run (.initial w) ls = some (rs, c)) (halone : slot.Unbroken (turns ls rs))
    (hcurrent : ∀ r ∈ rs, Current r.before.jobs r.call) :
    WithinLimit c.state.jobs ∧ ∀ r ∈ rs, WithinLimit r.after.jobs := by
  have hknown := (ConcurrentJobs.sound.run trivial hl hr fun _ _ _ => trivial).1
  have hsingle : ∀ l ∈ ls, l.Single := fun l hmem => (hl l hmem).single
  have hfree : ∀ r ∈ rs, ∀ userId, slot.takes r.call = some userId → Free userId r.before := by
    refine Lookup.free_of_unbroken Free Waits hsingle hr (fun _ op _ => gated_code op) ?_ ?_ ?_
      halone
    · exact fun r hmem userId => submits_of_takes (hknown r hmem)
    · exact fun r hmem userId => free_exec (hknown r hmem) (hcurrent r hmem)
    · intro userId v s s' he h
      unfold Free
      rw [(World.occur_frame he).1]
      exact h
  have hrec : ∀ r ∈ rs, OnePerOwner r.before.jobs → OnePerOwner r.after.jobs :=
    fun r hmem => onePerOwner_exec (hknown r hmem) (hfree r hmem) (hcurrent r hmem)
  have hstates : (∀ r ∈ rs, OnePerOwner r.before.jobs) ∧ OnePerOwner c.state.jobs := by
    refine Machine.run_states (I := fun w => OnePerOwner w.jobs) hr hrec ?_ (withinLimit_iff.mp hw)
    intro v s s' he h
    rwa [(World.occur_frame he).1]
  exact ⟨withinLimit_iff.mpr hstates.2,
    fun r hmem => withinLimit_iff.mpr (hrec r hmem (hstates.1 r hmem))⟩

/-- Two requests of one user both list its jobs before either of them creates one. -/
def twoRequests : List SysLabel :=
  List.replicate 2 (.spawn (.createJob "user" .act .hfHub "org/dataset" 100)) ++
    List.replicate 2 (.serve 0 {}) ++ List.replicate 2 (.serve 1 {}) ++
    List.replicate 4 (.serve 0 { text := "j" }) ++ List.replicate 4 (.serve 1 { text := "k" })

theorem active_jobs_within_limit_fails : ¬ ∀ (ls : List SysLabel) (rs : List SysRecord)
    (c : SysConf), (∀ l ∈ ls, Interleaved l) →
    Deployment.sample.system.run (.initial .sample) ls = some (rs, c) →
    ∀ userId, countActive (c.state.jobs.listForUser userId) ≤ maxConcurrentJobs := by
  intro h
  have hrun : (Deployment.sample.system.run (.initial .sample) twoRequests).any (fun out =>
      countActive (out.2.state.jobs.listForUser "user") == 2) = true := by rfl
  obtain ⟨⟨rs, c⟩, hr, htwo⟩ := (Option.any_eq_true _ _).mp hrun
  have hle := h twoRequests rs c (by decide) hr "user"
  rw [eq_of_beq htwo] at hle
  revert hle
  decide

namespace ConcurrentJobs

/-- Of two requests that were sent at once, the second one lists the jobs after the first one has
created its job, and is refused. The job is cancelled, and a third request creates another one
while the worker is still at its tick. -/
def oneAfterAnother : List SysLabel :=
  List.replicate 2 (.spawn (.createJob "user" .act .hfHub "org/dataset" 100)) ++
    [.serve 0 {}, .serve 0 {}, .serve 1 {}] ++ List.replicate 4 (.serve 0 { text := "j" }) ++
    [.serve 1 {}, .serve 1 {}, .spawn (.requestCancel "user" "j")] ++
    List.replicate 3 (.serve 2 {}) ++ .start .pollerTick :: List.replicate 3 (.work {}) ++
    [.spawn (.createJob "user" .act .hfHub "org/dataset" 100), .serve 3 {}, .serve 3 {}, .work {}] ++
    List.replicate 4 (.serve 3 { text := "m" })

/-- Is no update out of date? -/
def currentCall (jobs : JobTable) : Call → Bool
  | .jobsUpdate _ new =>
    decide (new.status.Active → ∀ stored ∈ jobs.get? new.id, stored.status.Active)
  | _ => true

theorem current_of_currentCall {jobs : JobTable} {c : Call} (h : currentCall jobs c = true) :
    Current jobs c := by
  cases c with
  | jobsUpdate seen new => simpa [currentCall, Current, ← imp_iff_not_or] using h
  | _ => trivial

end ConcurrentJobs

theorem active_jobs_within_limit_again : ∃ rs c,
    Deployment.sample.system.run (.initial .sample) oneAfterAnother = some (rs, c) ∧
      slot.Unbroken (turns oneAfterAnother rs) ∧ (∀ r ∈ rs, Current r.before.jobs r.call) ∧
      (c.state.jobs.listForUser "user").length = 2 ∧ WithinLimit c.state.jobs ∧
      ∀ r ∈ rs, WithinLimit r.after.jobs := by
  have hrun : (Deployment.sample.system.run (.initial .sample) oneAfterAnother).any (fun out =>
      decide (slot.Unbroken (turns oneAfterAnother out.1)) &&
        (out.1.all (fun r => currentCall r.before.jobs r.call) &&
          (out.2.state.jobs.listForUser "user").length == 2)) = true := by decide +kernel
  obtain ⟨⟨rs, c⟩, hr, hchecks⟩ := (Option.any_eq_true _ _).mp hrun
  simp only [Bool.and_eq_true, decide_eq_true_eq, beq_iff_eq, List.all_eq_true] at hchecks
  obtain ⟨halone, hall, htwo⟩ := hchecks
  have hcurrent : ∀ r ∈ rs, Current r.before.jobs r.call :=
    fun r hmem => current_of_currentCall (hall r hmem)
  have hempty : WithinLimit World.sample.jobs := fun _ => Nat.zero_le 1
  have hlimit := active_jobs_within_limit .sample hempty (by decide) hr halone hcurrent
  exact ⟨rs, c, hr, halone, hcurrent, htwo, hlimit⟩

end TrainVla
