import TrainVla.Interaction.Evaluation
import TrainVla.Properties.Documents
import TrainVla.Properties.QueueOrder

/-! What a request does is confined to the jobs and uploads of its user, and so is what it
returns. -/
namespace TrainVla

open Interaction Store UploadService Documents

/-- The requests about jobs and uploads that `userId` makes. -/
def Op.RequestOf (userId : String) : Op → Prop
  | createUploadTarget caller _ | confirmZipUpload caller .. => caller = userId
  | submitHfDataset caller .. | listJobs caller => caller = userId
  | requestCancel caller _ | getDownloadUrl caller _ => caller = userId
  | _ => False

/-- The part of the object store that belongs to a user. -/
def uploadsOf (userId : String) : String := s!"uploads/{userId}/"

def Below (userId objectPath : String) : Prop := startsWith objectPath (uploadsOf userId) = true

/-- The object that a call looks for, reads, deletes or writes. -/
def Call.object? : Call → Option String
  | storageExists objectPath | storageOpenReadStream _ objectPath => some objectPath
  | storageDelete objectPath | storageUploadFile objectPath _ => some objectPath
  | _ => none

/-- A call that stays within what belongs to `userId`. -/
structure Confined (userId : String) (r : SysRecord) : Prop where
  jobs : ∀ job, job.userId ≠ userId → (job ∈ r.after.jobs ↔ job ∈ r.before.jobs)
  users : r.after.users = r.before.users
  objects : ∀ objectPath, ¬ Below userId objectPath →
    r.after.objects.get? objectPath = r.before.objects.get? objectPath
  touched : ∀ objectPath, r.call.object? = some objectPath → Below userId objectPath
  uploadUrl : ∀ objectPath contentType expiresInSeconds,
    r.call = .storageGenerateUploadUrl objectPath contentType expiresInSeconds →
    Below userId objectPath
  downloadUrl : ∀ objectPath expiresInSeconds,
    r.call = .storageGenerateDownloadUrl objectPath expiresInSeconds →
    ∃ job, job.userId = userId ∧ job.status = .completed ∧
      job.checkpointGcsPath = some objectPath ∧ Table.Copy OriginKept job r.before.jobs

/-- A call that another user does not notice. -/
structure Untouched (other : String) (r : SysRecord) : Prop where
  jobs : ∀ job, job.userId = other → (job ∈ r.after.jobs ↔ job ∈ r.before.jobs)
  uploads : ∀ objectPath, Below other objectPath →
    r.after.objects.get? objectPath = r.before.objects.get? objectPath ∧
      r.call.object? ≠ some objectPath

/-- What requests of `userId` return: all jobs of this user and no others, URLs to upload to the
part of the object store that belongs to this user, URLs to download what completed jobs of this
user have stored. -/
structure ReturnsOwn (D : Deployment) (w : World) (userId : String) : Prop where
  listed : ∀ xs, ∃ views, eval (World.exec D.steady) xs w (JobService.listJobsForUser userId) =
    some (.ok views, w) ∧
    views.map JobService.JobView.job = w.jobs.rows.filter fun job => job.userId = userId
  uploadUrl : ∀ xs given uploadId url w',
    eval (World.exec D.steady) xs w (createUploadTarget userId given) =
      some (.ok (uploadId, url), w') →
    Below userId (objectPath userId uploadId) ∧ ∃ o,
      World.exec D.steady o w (.storageGenerateUploadUrl (objectPath userId uploadId)
        "application/zip" uploadUrlExpiresInSeconds) = some (url, w')
  downloadUrl : ∀ xs jobId url w',
    eval (World.exec D.steady) xs w (JobService.getDownloadUrl userId jobId) =
      some (.ok url, w') →
    ∃ job ∈ w.jobs, job.id = jobId ∧ job.userId = userId ∧ job.status = .completed ∧
      ∃ objectPath o, job.checkpointGcsPath = some objectPath ∧
        World.exec D.steady o w (.storageGenerateDownloadUrl objectPath
          JobService.downloadUrlExpiresInSeconds) = some (url, w')

namespace UserIsolation

theorem uploadsOf_toList (userId : String) :
    (uploadsOf userId).toList = "uploads/".toList ++ (userId.toList ++ ['/']) := by
  simp [uploadsOf, toString]

theorem below_objectPath (userId uploadId : String) : Below userId (objectPath userId uploadId) := by
  unfold Below startsWith
  rw [List.isPrefixOf_iff_prefix, uploadsOf_toList, objectPath_toList]
  exact ⟨uploadId.toList ++ ".zip".toList, by simp⟩

/-- Nothing belongs to two users, whatever follows the prefix. -/
theorem not_below {userId other objectPath : String} (huser : '/' ∉ userId.toList)
    (hother : '/' ∉ other.toList) (hne : userId ≠ other) (h : Below userId objectPath) :
    ¬ Below other objectPath := by
  intro h'
  unfold Below startsWith at h h'
  rw [List.isPrefixOf_iff_prefix, uploadsOf_toList] at h h'
  obtain ⟨rest, hrest⟩ := h
  obtain ⟨rest', hrest'⟩ := h'
  have heq := hrest.trans hrest'.symm
  simp only [List.append_assoc, List.append_cancel_left_eq, List.singleton_append] at heq
  exact hne (String.toList_injective (append_cons_inj huser hother heq).1)

/-- What an operation holds has the owner of what is stored. -/
def protocol : JobProtocol where
  inv _ := True
  rely _ := Table.Evolves OriginKept
  cond _ _ _ := True
  knows _ _ seen jobs := Table.Copy OriginKept seen jobs

theorem sound : protocol.Sound where
  refl _ _ := .rfl .rfl
  trans _ _ _ _ := .trans .trans
  stable _ _ _ _ _ hrely _ hk := hk.evolve hrely .trans
  found _ _ _ _ _ _ hmem := .of_mem .rfl hmem
  promote _ _ _ _ _ _ hk := hk
  wrote _ _ _ _ _ new jobs _ hw hk _ :=
    ⟨trivial, .put_self .rfl jobs new, fun _ hjob hne => hjob.put_of_ne hne,
      fun _ _ => Table.evolves_put .rfl fun _ hstored =>
        hw.sameOrigin.trans (Table.Copy.stored hk hw.id_eq hstored).symm⟩
  created _ _ _ _ _ _ _ _ _ hfresh _ :=
    ⟨trivial, fun _ => Table.evolves_put_fresh .rfl hfresh⟩

/-- A write of a job of one owner changes no job of another one. -/
theorem mem_put_of_owner {jobs : JobTable} {new job : Job} {userId : String}
    (hnew : new.userId = userId)
    (hstored : ∀ stored, jobs.get? new.id = some stored → stored.userId = userId)
    (hjob : job.userId ≠ userId) : job ∈ jobs.put new ↔ job ∈ jobs := by
  rw [Table.mem_put]
  constructor
  · rintro (rfl | ⟨hmem, -⟩)
    · exact absurd hnew hjob
    · exact hmem
  · intro hmem
    refine .inr ⟨hmem, fun hid => hjob (hstored job ?_)⟩
    rw [← hid]
    exact Table.get?_of_mem hmem

section

variable {D : Deployment} {userId : String} {o : Choice} {w w' : World} {op : Op} {c : Call}
  {a : c.Resp}

theorem caller_of_requestOf (hop : op.RequestOf userId) : op.caller = some userId := by
  cases op <;> first | exact congrArg some hop | exact hop.elim

/-- The only write of a request about jobs. -/
theorem owner_of_write {st st' : Stage} {seen new : Job} {now : ℤ}
    (hw : JobWrite op st seen now st' new) (hop : op.RequestOf userId) : new.userId = userId := by
  cases hw with
  | requestCancel hactive howner => exact howner.trans hop
  | _ => exact hop.elim

theorem confined_jobs (hop : op.RequestOf userId) (hpre : (protocol.toProtocol).pre D op w c)
    (he : World.exec D.steady o w c = some (a, w')) {job : Job} (hjob : job.userId ≠ userId) :
    job ∈ w'.jobs ↔ job ∈ w.jobs := by
  have hframe := (World.exec_frame he).jobs
  cases c with
  | jobsCreate new =>
    obtain ⟨rfl, hfresh⟩ := World.exec_jobsCreate he
    obtain ⟨-, user, owned, today, now, -, -, -, -, -, howner, -⟩ := hpre
    rw [caller_of_requestOf hop, Option.some.injEq] at howner
    refine mem_put_of_owner howner.symm (fun stored hstored => ?_) hjob
    rw [hfresh] at hstored
    cases hstored
  | jobsUpdate seen new =>
    obtain rfl := World.exec_jobsUpdate he
    obtain ⟨st, now, st', hw, hk, -⟩ := hpre
    have hnew := owner_of_write hw hop
    refine mem_put_of_owner hnew (fun stored hstored => ?_) hjob
    have hkept : OriginKept seen stored := Table.Copy.stored hk hw.id_eq hstored
    have hsame : stored.SameOrigin seen := hkept
    rw [hsame.userId, ← hw.sameOrigin.userId, hnew]
  | _ => rw [hframe rfl]

theorem confined_users (hop : op.RequestOf userId) (hpre : (protocol.toProtocol).pre D op w c)
    (he : World.exec D.steady o w c = some (a, w')) : w'.users = w.users := by
  have hframe := (World.exec_frame he).users
  cases c with
  | usersUpdate charge seen user =>
    cases charge with
    | none =>
      obtain ⟨⟨caller, oldPassword, newPassword, rfl⟩, -⟩ := hpre
      exact hop.elim
    | some jobId =>
      obtain ⟨rfl, -⟩ := hpre
      exact hop.elim
  | usersCreate user =>
    have hnew : NewUser op user := hpre
    cases hnew <;> exact hop.elim
  | _ => exact hframe rfl

/-- The calls that name an object are those of a confirmation. -/
theorem confined_touched (hop : op.RequestOf userId) (hpre : (protocol.toProtocol).pre D op w c)
    {objectPath : String} (hobject : c.object? = some objectPath) : Below userId objectPath := by
  have hconfirm : (∃ caller uploadId policy trainingSteps,
      op = .confirmZipUpload caller uploadId policy trainingSteps ∧
      objectPath = UploadService.objectPath caller uploadId) → Below userId objectPath := by
    rintro ⟨caller, uploadId, policy, trainingSteps, rfl, rfl⟩
    obtain rfl : caller = userId := hop
    exact below_objectPath caller uploadId
  cases c with
  | storageExists path =>
    obtain rfl := Option.some.inj hobject
    exact hconfirm hpre
  | storageOpenReadStream purpose path =>
    obtain rfl := Option.some.inj hobject
    cases purpose with
    | extraction =>
      obtain ⟨rfl, -⟩ := hpre
      exact hop.elim
    | _ => exact hconfirm hpre
  | storageDelete path =>
    obtain rfl := Option.some.inj hobject
    rcases hpre with hpre | ⟨rfl, -⟩
    · exact hconfirm hpre
    · exact hop.elim
  | storageUploadFile path jobId =>
    obtain ⟨rfl, -⟩ := hpre
    exact hop.elim
  | _ => cases hobject

theorem confined_objects (hop : op.RequestOf userId) (hpre : (protocol.toProtocol).pre D op w c)
    (he : World.exec D.steady o w c = some (a, w')) {objectPath : String}
    (hbelow : ¬ Below userId objectPath) :
    w'.objects.get? objectPath = w.objects.get? objectPath := by
  have hframe := (World.exec_frame he).objects
  cases c with
  | storageDelete path =>
    have htouched := confined_touched hop hpre rfl
    obtain ⟨-, rfl⟩ := Prod.mk.inj (Option.some.inj he)
    show (w.objects.erase path).get? objectPath = _
    rw [Table.get?_erase, if_neg]
    rintro rfl
    exact hbelow htouched
  | storageUploadFile path jobId =>
    obtain ⟨rfl, -⟩ := hpre
    exact hop.elim
  | _ => rw [hframe rfl]

theorem confined_of_known {r : SysRecord}
    (hr : r.Known D.system (protocol.toProtocol.outline D)) (hop : r.op.RequestOf userId) :
    Confined userId r := by
  obtain ⟨op, before, call, after⟩ := r
  obtain ⟨-, hpre, o, a, he⟩ := hr
  have he : World.exec D.steady o before call = some (a, after) := he
  constructor
  · exact fun job hjob => confined_jobs hop hpre he hjob
  · exact confined_users hop hpre he
  · exact fun objectPath hbelow => confined_objects hop hpre he hbelow
  · exact fun objectPath hobject => confined_touched hop hpre hobject
  · rintro objectPath contentType expiresInSeconds rfl
    obtain ⟨caller, given, uploadId, rfl, rfl⟩ := hpre
    obtain rfl : caller = userId := hop
    exact below_objectPath caller uploadId
  · rintro objectPath expiresInSeconds rfl
    obtain ⟨caller, jobId, job, rfl, hk, howner, -, hstatus, hpath⟩ := hpre
    exact ⟨job, howner.trans hop, hstatus, hpath, hk⟩

end

/-- What a user is shown: all jobs of this user, and none of another one. -/
theorem eval_listJobsForUser {D : Deployment} (xs : ℕ → Choice) (w : World) (userId : String) :
    ∃ views, eval (World.exec D.steady) xs w (JobService.listJobsForUser userId) =
      some (.ok views, w) ∧ views.map JobService.JobView.job = w.jobs.listForUser userId := by
  have hqueued : ∀ job ∈ w.jobs.listForUser userId, job.status = .queued →
      job.id ∈ (w.jobs.listByStatuses [.queued]).map Job.id := by
    intro job hjob hstatus
    have hmem := (JobTable.mem_listForUser.mp hjob).1
    exact List.mem_map_of_mem (JobTable.mem_listByStatuses.mpr ⟨hmem, by simp [hstatus]⟩)
  have hviews := QueueOrder.mapM_viewOf hqueued
  refine ⟨_, ?_, QueueOrder.map_job_viewAt ((w.jobs.listByStatuses [.queued]).map Job.id) _⟩
  unfold JobService.listJobsForUser
  rw [eval_perform]
  simp only [World.exec, Option.bind_some]
  rw [eval_perform]
  simp only [World.exec, Option.bind_some]
  rw [hviews]
  rfl

theorem eval_getDownloadUrl {D : Deployment} (xs : ℕ → Choice) (w : World)
    (userId jobId : String) :
    eval (World.exec D.steady) xs w (JobService.getDownloadUrl userId jobId) =
      match w.jobs.get? jobId with
      | none => some (.error (.jobNotFound jobId), w)
      | some job =>
        if job.userId ≠ userId then some (.error (.notJobOwner jobId), w)
        else
          match job.checkpointGcsPath with
          | some path =>
            if job.status ≠ .completed ∨ path = "" then
              some (.error (.downloadNotAvailable jobId), w)
            else some (.ok (xs 1).text, w)
          | none => some (.error (.downloadNotAvailable jobId), w) := by
  unfold JobService.getDownloadUrl JobService.getJob
  rw [eval_perform_bind]
  simp only [World.exec, Option.bind_some]
  cases w.jobs.get? jobId with
  | none => rfl
  | some job =>
    show eval _ _ w (if job.userId ≠ userId then _ else _) = _
    dsimp only
    split
    · rfl
    · cases job.checkpointGcsPath with
      | none => rfl
      | some path =>
        dsimp only
        split <;> rfl

theorem eval_createUploadTarget {D : Deployment} {xs : ℕ → Choice} {w w' : World}
    {userId uploadId url : String} {given : Option String}
    (h : eval (World.exec D.steady) xs w (createUploadTarget userId given) =
      some (.ok (uploadId, url), w')) : ∃ o,
      World.exec D.steady o w (.storageGenerateUploadUrl (objectPath userId uploadId)
        "application/zip" uploadUrlExpiresInSeconds) = some (url, w') := by
  have hurl : ∀ (ys : ℕ → Choice) (id : String),
      eval (World.exec D.steady) ys w (do
        let url ← perform (.storageGenerateUploadUrl (objectPath userId id)
          "application/zip" uploadUrlExpiresInSeconds)
        pure (id, url) : Service (String × String)) = some (.ok (uploadId, url), w') →
      id = uploadId ∧ World.exec D.steady (ys 0) w (.storageGenerateUploadUrl
        (objectPath userId id) "application/zip" uploadUrlExpiresInSeconds) = some (url, w') := by
    intro ys id hend
    rw [eval_perform] at hend
    simp only [World.exec, Option.bind_some, eval_pure, Option.some.injEq, Prod.mk.injEq,
      Except.ok.injEq] at hend
    obtain ⟨⟨hid, htext⟩, hw⟩ := hend
    exact ⟨hid, by rw [← htext, ← hw]; rfl⟩
  unfold createUploadTarget at h
  cases given with
  | none =>
    obtain ⟨rfl, ho⟩ := hurl (fun n => xs (n + 1)) _ h
    exact ⟨_, ho⟩
  | some id =>
    by_cases hid : id = ""
    · subst hid
      obtain ⟨rfl, ho⟩ := hurl (fun n => xs (n + 1)) _ h
      exact ⟨_, ho⟩
    · simp only [if_neg hid] at h
      obtain ⟨rfl, ho⟩ := hurl xs id h
      exact ⟨_, ho⟩

theorem returnsOwn (D : Deployment) (w : World) (userId : String) : ReturnsOwn D w userId where
  listed xs := eval_listJobsForUser xs w userId
  uploadUrl xs given uploadId url w' h :=
    ⟨below_objectPath userId uploadId, eval_createUploadTarget h⟩
  downloadUrl xs jobId url w' h := by
    rw [eval_getDownloadUrl] at h
    cases hget : w.jobs.get? jobId with
    | none =>
      rw [hget] at h
      cases h
    | some job =>
      rw [hget] at h
      dsimp only at h
      split at h
      · cases h
      · rename_i howner
        cases hpath : job.checkpointGcsPath with
        | none =>
          rw [hpath] at h
          cases h
        | some path =>
          rw [hpath] at h
          dsimp only at h
          split at h
          · cases h
          · rename_i hcompleted
            rw [not_or, not_not] at hcompleted
            obtain ⟨hr, rfl⟩ := Prod.mk.inj (Option.some.inj h)
            obtain rfl := Except.ok.inj hr
            exact ⟨job, Table.mem_of_get? hget, Table.key_of_get? hget, not_not.mp howner,
              hcompleted.1, path, xs 1, hpath, rfl⟩

theorem untouched_of_confined {userId other : String} {r : SysRecord} (huser : '/' ∉ userId.toList)
    (hother : '/' ∉ other.toList) (hne : other ≠ userId) (h : Confined userId r) :
    Untouched other r where
  jobs job hjob := h.jobs job (hjob ▸ hne)
  uploads objectPath hbelow := by
    have houtside : ¬ Below userId objectPath := not_below hother huser hne hbelow
    exact ⟨h.objects objectPath houtside, fun hobject => houtside (h.touched objectPath hobject)⟩

end UserIsolation

open UserIsolation

/-- In every schedule, from every state, each call of a request is confined to what belongs to its
user, so that no other user notices it; and from every state a request returns only what belongs
to its user. -/
theorem users_isolated (D : Deployment) {userId : String} (huser : '/' ∉ userId.toList) :
    (∀ w ls rs c, D.system.run (.initial w) ls = some (rs, c) → ∀ r ∈ rs, r.op.RequestOf userId →
      Confined userId r ∧
        ∀ other, '/' ∉ other.toList → other ≠ userId → Untouched other r) ∧
    ∀ w, ReturnsOwn D w userId := by
  constructor
  · intro w ls rs c hr r hmem hop
    have hl : ∀ l ∈ ls, (fun _ => True : SysLabel → Prop) l := fun _ _ => trivial
    have hknown := (UserIsolation.sound.run trivial hl hr fun _ _ _ => trivial).1
    have hconfined := confined_of_known (hknown r hmem) hop
    exact ⟨hconfined, fun other hother hne => untouched_of_confined huser hother hne hconfined⟩
  · exact fun w => returnsOwn D w userId

theorem users_isolated_user : '/' ∉ "user".toList ∧
    (∀ ls rs c, Deployment.sample.system.run (.initial .sample) ls = some (rs, c) →
      ∀ r ∈ rs, r.op.RequestOf "user" → Untouched "other" r) ∧
    ReturnsOwn .sample .sample "user" := by
  have huser : '/' ∉ "user".toList := by decide
  have hother : '/' ∉ "other".toList := by decide
  obtain ⟨hrun, hreturns⟩ := users_isolated .sample huser
  refine ⟨huser, fun ls rs c hr r hmem hop => ?_, hreturns .sample⟩
  exact (hrun .sample ls rs c hr r hmem hop).2 "other" hother (by decide)

end TrainVla
