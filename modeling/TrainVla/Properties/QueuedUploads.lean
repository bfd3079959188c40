import TrainVla.System.Provenance
import TrainVla.Properties.ConcurrentJobs
import TrainVla.System.AtomicProtocol

/-! A job that waits in the queue for its upload to be extracted finds the upload in the object
store, exactly as long as no rejected confirmation deletes it. -/
namespace TrainVla

open Interaction Store UploadService

/-- The uploads of the jobs in the queue are stored. -/
def UploadsKept (w : World) : Prop :=
  ∀ job ∈ w.jobs, job.status = .queued → job.sourceType = .zipUpload →
    (w.objects.get? job.sourceRef).isSome = true

/-- A rejection deletes an upload only if no job in the queue refers to it. -/
def Spares (r : SysRecord) : Prop :=
  ∀ objectPath, r.call = .storageDelete objectPath → r.op ≠ .pollerTick →
    ∀ job ∈ r.before.jobs, job.status = .queued → job.sourceType = .zipUpload →
      job.sourceRef ≠ objectPath

namespace QueuedUploads

/-- A job whose data are fetched has been taken from the queue. -/
def protocol : AtomicProtocol where
  inv w := ConcurrentJobs.OnePerOwner w.jobs
  calm _ := True
  cond _ _ _ := True
  knows st job _ :=
    match st with
    | .started _ => job.status = .initializing
    | .charged => job.status = .initializing
    | _ => True
  dated _ _ := True

theorem keeps_of_jobs {w w' : World} (hjobs : w'.jobs = w.jobs) : protocol.Keeps w w' := by
  refine ⟨fun hi => ?_, fun _ => trivial, fun st job _ hk => hk⟩
  show ConcurrentJobs.OnePerOwner w'.jobs
  rw [hjobs]
  exact hi

theorem sound {D : Deployment} : protocol.Sound D where
  alike _ _ h := keeps_of_jobs h.jobs
  tick _ _ _ := keeps_of_jobs rfl
  read _ _ := trivial
  next _ _ _ _ _ _ := trivial
  owned _ _ _ _ _ _ := trivial
  dated _ _ _ _ := trivial
  sawProgress _ _ _ _ _ _ _ _ _ := ⟨trivial, fun _ => trivial⟩
  polled _ _ _ _ _ _ _ := trivial
  wrote op st seen now st' new w hi hw hseen _ _ _ _ := by
    refine ⟨ConcurrentJobs.onePerOwner_rewrite hi hseen hw.active hw.sameOrigin.userId, ?_, fun _ => trivial⟩
    cases hw with
    | start _ => exact rfl
    | _ => trivial
  created op user today now job w hi hnew hid _ _ _ _ _ _ _ := by
    obtain ⟨hfree, -⟩ := canCreateJob_allowed.mp hnew.allowed
    rw [hid] at hfree
    exact ⟨ConcurrentJobs.onePerOwner_create hi hfree, trivial⟩
  charged _ _ _ _ hi _ hk _ := ⟨hi, hk, trivial⟩
  password _ _ _ _ := ⟨id, id⟩
  signedUp _ _ _ hi _ _ := ⟨hi, id⟩
  refused _ _ hi _ _ := ⟨hi, trivial, id⟩
  launched _ _ _ _ hi _ _ _ _ _ := ⟨hi, trivial⟩
  killed _ _ _ _ := ⟨id, id, fun _ _ => trivial⟩
  occur _ _ _ he := by
    have hkeeps := keeps_of_jobs (World.occur_frame he).1
    exact ⟨hkeeps.1, hkeeps.2.1⟩

/-- No user identifier has a slash in it. -/
structure Inv (w : World) : Prop where
  kept : UploadsKept w
  plain : ∀ job ∈ w.jobs, '/' ∉ job.userId.toList

section

variable {D : Deployment} {o : Choice} {w w' : World} {op : Op} {c : Call} {r : c.Resp}

theorem plain_exec (hcaller : ∀ userId ∈ op.caller, '/' ∉ userId.toList)
    (hpre : (protocol.toProtocol D).pre D op w c) (he : World.exec D.steady o w c = some (r, w'))
    (hi : Inv w) : ∀ job ∈ w'.jobs, '/' ∉ job.userId.toList := by
  have hframe := (World.exec_frame he).jobs
  cases c with
  | jobsCreate job =>
    obtain ⟨rfl, -⟩ := World.exec_jobsCreate he
    obtain ⟨-, user, owned, today, now, -, -, -, -, -, howner, -⟩ := hpre
    intro other hother
    rcases Table.mem_put.mp hother with rfl | ⟨hother, -⟩
    · exact hcaller _ howner
    · exact hi.plain other hother
  | jobsUpdate seen new =>
    obtain rfl := World.exec_jobsUpdate he
    obtain ⟨st, now, st', hw, ⟨hseen, -⟩, -⟩ := hpre
    intro other hother
    rcases Table.mem_put.mp hother with rfl | ⟨hother, -⟩
    · rw [hw.sameOrigin.userId]
      exact hi.plain seen (Table.mem_of_get? hseen)
    · exact hi.plain other hother
  | _ =>
    rw [hframe rfl]
    exact hi.plain

/-- What the worker deletes belongs to the only active job of its owner. -/
theorem ne_of_charged {job other : Job} {log : List Entry}
    (hsingle : ConcurrentJobs.OnePerOwner w.jobs) (hi : Inv w)
    (hjob : w.jobs.get? job.id = some job) (hstatus : job.status = .initializing)
    (hzip : job.sourceType = .zipUpload) (hother : other ∈ w.jobs) (hqueued : other.status = .queued)
    (hzip' : other.sourceType = .zipUpload) (hborne : Provenance D log job)
    (hborne' : Provenance D log other) : other.sourceRef ≠ job.sourceRef := by
  intro hpath
  have hmem := Table.mem_of_get? hjob
  obtain ⟨uploadId, -, href, -⟩ := hborne.source hzip
  obtain ⟨uploadId', -, href', -⟩ := hborne'.source hzip'
  rw [href, href'] at hpath
  have howner := (objectPath_inj (hi.plain other hother) (hi.plain job hmem) hpath).1
  have hactive : job.status.Active := by
    rw [hstatus]
    decide
  have hactive' : other.status.Active := by
    rw [hqueued]
    decide
  have hsame := hsingle other hother job hmem hactive' hactive howner
  rw [hsame, hstatus] at hqueued
  cases hqueued

/-- A delete of a path that no job in the queue refers to. -/
theorem kept_delete {objectPath : String} (hk : UploadsKept w)
    (hspare : ∀ job ∈ w.jobs, job.status = .queued → job.sourceType = .zipUpload →
      job.sourceRef ≠ objectPath) : UploadsKept { w with objects := w.objects.erase objectPath } := by
  intro job hjob hqueued hzip
  show ((w.objects.erase objectPath).get? job.sourceRef).isSome = true
  rw [Table.get?_erase, if_neg (hspare job hjob hqueued hzip)]
  exact hk job hjob hqueued hzip

theorem kept_exec (hborne : (Provenance.protocol D).inv w)
    (hborne' : (Provenance.protocol D).pre D op w c) (hdirect : op.direct = false)
    (hsingle : ConcurrentJobs.OnePerOwner w.jobs) (hpre : (protocol.toProtocol D).pre D op w c)
    (he : World.exec D.steady o w c = some (r, w')) (hspares : Spares ⟨op, w, c, w'⟩) (hi : Inv w) :
    UploadsKept w' := by
  have hframe := World.exec_frame he
  have hquiet : c.writesJobs = false → c.writesObjects = false → UploadsKept w' := by
    intro hjobs hobjects
    unfold UploadsKept
    rw [hframe.jobs hjobs, hframe.objects hobjects]
    exact hi.kept
  cases c with
  | jobsCreate job =>
    obtain ⟨rfl, -⟩ := World.exec_jobsCreate he
    obtain ⟨-, user, owned, today, now, -, -, -, -, hlisted, -⟩ := hpre
    intro other hother hqueued hzip
    rcases Table.mem_put.mp hother with rfl | ⟨hother, -⟩
    · obtain ⟨data, hstored, -⟩ := hlisted hdirect hzip
      have hstored : w.objects.get? other.sourceRef = some (other.sourceRef, data) := hstored
      show (w.objects.get? other.sourceRef).isSome = true
      rw [hstored]
      rfl
    · exact hi.kept other hother hqueued hzip
  | jobsUpdate seen new =>
    obtain rfl := World.exec_jobsUpdate he
    obtain ⟨st, now, st', hw, ⟨hseen, -⟩, -⟩ := hpre
    intro other hother hqueued hzip
    rcases Table.mem_put.mp hother with rfl | ⟨hother, -⟩
    · have hsame := hw.sameOrigin
      have hkept := hi.kept seen (Table.mem_of_get? hseen) (hw.queued_of_queued hqueued).2
        (hsame.sourceType.symm.trans hzip)
      rwa [← hsame.sourceRef] at hkept
    · exact hi.kept other hother hqueued hzip
  | storageDelete path =>
    obtain ⟨-, rfl⟩ := Prod.mk.inj (Option.some.inj he)
    refine kept_delete hi.kept fun other hother hqueued hzip' => ?_
    rcases hpre with ⟨userId, uploadId, policy, trainingSteps, rfl, -⟩ | ⟨hop, job, hjob, hzip, href⟩
    · exact hspares path rfl nofun other hother hqueued hzip'
    · rw [← href]
      have hmem := Table.mem_of_get? hjob.1
      exact ne_of_charged hsingle hi hjob.1 hjob.2 hzip hother hqueued hzip' (hborne job hmem)
        (hborne other hother)
  | storageUploadFile path jobId =>
    rcases World.exec_upload he with ⟨-, rfl⟩ | ⟨-, rfl⟩
    · exact hi.kept
    · exact fun job hjob hqueued hzip => Table.isSome_get?_put _ (hi.kept job hjob hqueued hzip)
  | _ => exact hquiet rfl rfl

end

theorem inv_occur {v : Event} {w w' : World} (he : World.occur v w = some w') (hi : Inv w) :
    Inv w' := by
  cases World.occurred_of_occur he with
  | put data hissued =>
    refine ⟨fun job hjob hqueued hzip => ?_, hi.plain⟩
    exact Table.isSome_get?_put _ (hi.kept job hjob hqueued hzip)
  | _ => exact ⟨hi.kept, hi.plain⟩

/-- A rejection that takes the upload of a job in the queue is seen at once. -/
theorem spares_of_kept {D : Deployment} {r : SysRecord}
    (hexec : ∃ o a, World.exec D.steady o r.before r.call = some (a, r.after))
    (hk : UploadsKept r.after) : Spares r := by
  obtain ⟨op, before, call, after⟩ := r
  obtain ⟨o, a, he⟩ := hexec
  intro path hcall _ job hjob hqueued hzip hpath
  obtain rfl : call = .storageDelete path := hcall
  have he : World.exec D.steady o before (.storageDelete path) = some (a, after) := he
  obtain ⟨-, rfl⟩ := Prod.mk.inj (Option.some.inj he)
  have hstored : ((before.objects.erase path).get? job.sourceRef).isSome = true :=
    hk job hjob hqueued hzip
  rw [Table.get?_erase, if_pos hpath] at hstored
  cases hstored

end QueuedUploads

open QueuedUploads

/-- In every run of whole operations: all uploads that jobs in the queue refer to are stored in
every state if and only if no rejected confirmation deletes one of them. -/
theorem queued_uploads_kept_iff (D : Deployment) {w : World} {ls : List SysLabel}
    {rs : List SysRecord} {c : SysConf} (hjobs : w.jobs = Table.empty)
    (hl : ∀ l ∈ ls, SubmittedWhole l) (hr : D.system.run (.initial w) ls = some (rs, c)) :
    ((∀ r ∈ rs, UploadsKept r.after) ∧ UploadsKept c.state) ↔ ∀ r ∈ rs, Spares r := by
  have hnone : ∀ job, job ∉ w.jobs := by
    rw [hjobs]
    exact Table.not_mem_empty
  have hops : ∀ r ∈ rs, r.op.direct = false ∧ ∀ userId ∈ r.op.caller, '/' ∉ userId.toList := by
    have hwhole : ∀ op xs, .whole op xs ∈ ls →
        op.direct = false ∧ ∀ userId ∈ op.caller, '/' ∉ userId.toList := fun op xs h => hl _ h
    refine Machine.run_op hr (fun op h => (hl _ h).elim) hwhole ?_ nofun nofun
    intro op h
    have hnobody := Op.caller_of_threaded h
    refine ⟨Op.direct_of_threaded h, fun userId hmem => ?_⟩
    rw [hnobody] at hmem
    cases hmem
  have hborne := (Provenance.run hjobs hl hr fun r hmem => (hops r hmem).1).1
  have hsingle : ConcurrentJobs.OnePerOwner w.jobs := fun a ha => absurd ha (hnone a)
  have hknown := (QueuedUploads.sound.run hsingle trivial (fun l h => (hl l h).uninterrupted) hr
    fun _ _ _ => trivial).1
  constructor
  · rintro ⟨hkept, -⟩ r hmem
    exact spares_of_kept (hknown r hmem).exec (hkept r hmem)
  · intro hspares
    have hstep : ∀ r ∈ rs, Inv r.before → Inv r.after := by
      intro r hmem hi
      obtain ⟨hsingle, hpre, o, a, he⟩ := hknown r hmem
      obtain ⟨hinv, hpre', -⟩ := hborne r hmem
      obtain ⟨hdirect, hcaller⟩ := hops r hmem
      exact ⟨kept_exec hinv hpre' hdirect hsingle hpre he (hspares r hmem) hi,
        plain_exec hcaller hpre he hi⟩
    have hinitial : Inv w := ⟨fun job hjob => absurd hjob (hnone job), fun job hjob =>
      absurd hjob (hnone job)⟩
    have hstates := Machine.run_states hr hstep (fun v w w' => inv_occur) hinitial
    exact ⟨fun r hmem => (hstep r hmem (hstates.1 r hmem)).kept, hstates.2.kept⟩

namespace QueuedUploads

/-- An upload is confirmed for one policy, and then again for another one. -/
def confirmedTwice (policy : PolicyType) : List SysLabel :=
  [.whole (.createUploadTarget "user" (some "up")) [{}],
    .event (.clientPut "uploads/user/up.zip" [0, 1]),
    .whole (.confirmZipUpload "user" "up" .act 100) (List.replicate 9 { text := "j" }),
    .whole (.confirmZipUpload "user" "up" policy 100) (List.replicate 4 {})]

theorem submitted_confirmedTwice (policy : PolicyType) :
    ∀ l ∈ confirmedTwice policy, SubmittedWhole l := by
  simp [confirmedTwice, SubmittedWhole, Op.direct, Op.caller]

/-- Is some upload that a job in the queue refers to not stored? -/
def misses (w : World) : Bool :=
  w.jobs.rows.any fun job => job.status = .queued && (job.sourceType = .zipUpload &&
    !(w.objects.get? job.sourceRef).isSome)

theorem not_kept_of_misses {w : World} (h : misses w = true) : ¬ UploadsKept w := by
  intro hkept
  obtain ⟨job, hjob, hmiss⟩ := List.any_eq_true.mp h
  simp only [Bool.and_eq_true, decide_eq_true_eq] at hmiss
  obtain ⟨hqueued, hzip, hgone⟩ := hmiss
  rw [hkept job hjob hqueued hzip] at hgone
  cases hgone

end QueuedUploads

/-- The second confirmation rejects the dataset for its policy and deletes the upload that the
first one queued. -/
theorem queued_uploads_kept_fails : ¬ ∀ (ls : List SysLabel) (rs : List SysRecord) (c : SysConf),
    (∀ l ∈ ls, SubmittedWhole l) →
    Deployment.camera.system.run (.initial .sample) ls = some (rs, c) → UploadsKept c.state := by
  intro h
  have hrun : (Deployment.camera.system.run (.initial .sample) (confirmedTwice .smolvla)).any
      (fun out => misses out.2.state) = true := by rfl
  obtain ⟨⟨rs, c⟩, hr, hmisses⟩ := (Option.any_eq_true _ _).mp hrun
  exact not_kept_of_misses hmisses (h _ rs c (submitted_confirmedTwice .smolvla) hr)

theorem queued_uploads_kept_iff_twice : ∃ rs c,
    Deployment.camera.system.run (.initial .sample) (confirmedTwice .smolvla) = some (rs, c) ∧
      (((∀ r ∈ rs, UploadsKept r.after) ∧ UploadsKept c.state) ↔ ∀ r ∈ rs, Spares r) := by
  have hrun : (Deployment.camera.system.run (.initial .sample)
      (confirmedTwice .smolvla)).isSome = true := by rfl
  obtain ⟨⟨rs, c⟩, hr⟩ := Option.isSome_iff_exists.mp hrun
  exact ⟨rs, c, hr, queued_uploads_kept_iff .camera rfl (submitted_confirmedTwice .smolvla) hr⟩

end TrainVla
