import TrainVla.Adapters.Firestore

/-! The adapters for documents refine the ones in memory: over any calls the collection holds
the encoded records, in the order of the table, and what is read is decoded again. -/
namespace TrainVla

open Store

theorem JobStatus.value_injective : Function.Injective JobStatus.value := by
  intro s t h
  have hs := JobStatus.ofValue_value s
  rw [h, JobStatus.ofValue_value t] at hs
  exact (Except.ok.inj hs).symm

/-! Queries over encoded jobs. -/

theorem whereEq_jobSnapshot (userId : String) (jobs : List Job) :
    Query.whereEq "user_id" userId (jobs.map jobSnapshot) =
      (jobs.filter fun job => job.userId = userId).map jobSnapshot := by
  have hfield : ∀ job, ((jobSnapshot job).2.get "user_id").asStr? = some job.userId := fun _ => rfl
  unfold Query.whereEq
  rw [List.filter_map]
  simp only [Function.comp_def, hfield, Option.some.injEq]

theorem whereIn_jobSnapshot (statuses : List JobStatus) (jobs : List Job) :
    Query.whereIn "status" (statuses.map JobStatus.value) (jobs.map jobSnapshot) =
      (jobs.filter fun job => job.status ∈ statuses).map jobSnapshot := by
  have hfield : ∀ job, ((jobSnapshot job).2.get "status").asStr? = some job.status.value :=
    fun _ => rfl
  unfold Query.whereIn
  rw [List.filter_map]
  simp only [Function.comp_def, hfield, Option.any_some,
    List.mem_map_of_injective JobStatus.value_injective]

/-- The jobs as `order_by` has them: those of the same time are ordered by their identifiers. -/
def orderedByCreation (jobs : List Job) : List Job :=
  jobs.insertionSort fun a b => toLex (a.createdAt, a.id) ≤ toLex (b.createdAt, b.id)

theorem orderBy_jobSnapshot (jobs : List Job) :
    Query.orderBy "created_at" (jobs.map jobSnapshot) =
      (orderedByCreation jobs).map jobSnapshot := by
  have htime : ∀ snap ∈ jobs.map jobSnapshot, (Query.timeOf "created_at" snap).isSome = true := by
    intro snap hsnap
    obtain ⟨job, -, rfl⟩ := List.mem_map.mp hsnap
    rfl
  unfold Query.orderBy orderedByCreation
  rw [List.filter_eq_self.mpr htime]
  symm
  apply List.map_insertionSort
  intro a _ b _
  rfl

theorem orderedByCreation_perm (jobs : List Job) : (orderedByCreation jobs).Perm jobs :=
  List.perm_insertionSort _ jobs

/-- The identifiers do not matter where the times differ. -/
theorem orderedByCreation_eq {jobs sorted : List Job} (hperm : sorted.Perm jobs)
    (hsorted : sorted.Pairwise fun a b => a.createdAt ≤ b.createdAt)
    (hdistinct : (sorted.map Job.createdAt).Nodup) : orderedByCreation jobs = sorted := by
  have hboth : (orderedByCreation jobs).Perm sorted := (orderedByCreation_perm jobs).trans hperm.symm
  have hordered : (orderedByCreation jobs).Pairwise fun a b => a.createdAt ≤ b.createdAt := by
    have h := List.pairwise_insertionSort
      (fun a b : Job => toLex (a.createdAt, a.id) ≤ toLex (b.createdAt, b.id)) jobs
    apply List.Pairwise.imp _ h
    intro a b hab
    rcases Prod.Lex.toLex_le_toLex.mp hab with hlt | ⟨heq, -⟩
    · exact hlt.le
    · exact heq.le
  apply hboth.eq_of_pairwise _ hordered hsorted
  intro a b ha hb hab hba
  exact List.inj_on_of_nodup_map hdistinct (hboth.mem_iff.mp ha) hb (le_antisymm hab hba)

/-! The job repositories. -/

/-- The collection holds the encoded jobs of the table. -/
abbrev JobsStored (jobs : JobTable) (docs : Collection) : Prop := Encodes jobSnapshot jobs docs

theorem jobsStored_step {jobs : JobTable} {docs : Collection} (h : JobsStored jobs docs)
    (call : JobCall) :
    JobsStored (inMemoryJobRepository.step jobs call) (firestoreJobRepository.step docs call) := by
  cases call with
  | create job => exact h.put (fun _ => rfl) job
  | update job => exact h.put (fun _ => rfl) job
  | get => exact h
  | listForUser => exact h
  | listByStatuses => exact h

theorem jobsStored_run {jobs : JobTable} {docs : Collection} (h : JobsStored jobs docs)
    (calls : List JobCall) :
    JobsStored (inMemoryJobRepository.run jobs calls) (firestoreJobRepository.run docs calls) := by
  induction calls generalizing jobs docs with
  | nil => exact h
  | cons call calls ih => exact ih (jobsStored_step h call)

section

variable {jobs : JobTable} {docs : Collection} (h : JobsStored jobs docs)
include h

theorem get_of_jobsStored (jobId : String) :
    firestoreJobRepository.get jobId docs = inMemoryJobRepository.get jobId jobs := by
  have hget : docs.get? jobId = (jobs.get? jobId).map jobSnapshot :=
    h.get? (fun _ => rfl) jobId
  unfold firestoreJobRepository inMemoryJobRepository
  dsimp only
  rw [hget]
  cases hjob : jobs.get? jobId with
  | none => rfl
  | some job =>
    have hid : job.id = jobId := Table.key_of_get? hjob
    have hdecoded := docToJob_jobToDoc job
    rw [hid] at hdecoded
    unfold jobSnapshot Option.map
    dsimp only
    rw [hdecoded]
    rfl

theorem listForUser_of_jobsStored (userId : String) :
    firestoreJobRepository.listForUser userId docs =
      .ok (orderedByCreation (JobTable.listForUser jobs userId)) := by
  unfold firestoreJobRepository JobTable.listForUser
  dsimp only
  rw [h, whereEq_jobSnapshot, orderBy_jobSnapshot]
  exact mapM_encoded docToJob_jobToDoc _

theorem listByStatuses_of_jobsStored (statuses : List JobStatus) :
    firestoreJobRepository.listByStatuses statuses docs =
      .ok (orderedByCreation (jobs.rows.filter fun job => job.status ∈ statuses)) := by
  unfold firestoreJobRepository
  dsimp only
  rw [h, whereIn_jobSnapshot, orderBy_jobSnapshot]
  exact mapM_encoded docToJob_jobToDoc _

end

/-! The user repositories. -/

abbrev UsersStored (users : UserTable) (docs : Collection) : Prop := Encodes userSnapshot users docs

theorem usersStored_run {users : UserTable} {docs : Collection} (h : UsersStored users docs)
    (calls : List UserCall) :
    UsersStored (inMemoryUserRepository.run users calls)
      (firestoreUserRepository.run docs calls) := by
  induction calls generalizing users docs with
  | nil => exact h
  | cons call calls ih =>
    apply ih
    cases call with
    | get => exact h
    | create user => exact h.put (fun _ => rfl) user
    | update user => exact h.put (fun _ => rfl) user

/-- Users that were written with dates are stored with dates. -/
theorem dated_run {users : UserTable} (h : ∀ user ∈ users, user.Dated) {calls : List UserCall}
    (hcalls : ∀ call ∈ calls, call.Dated) :
    ∀ user ∈ inMemoryUserRepository.run users calls, user.Dated := by
  have hput : ∀ (users : UserTable) (new : User), (∀ user ∈ users, user.Dated) → new.Dated →
      ∀ user ∈ users.put new, user.Dated := by
    intro users new husers hnew user huser
    rcases Table.mem_put.mp huser with rfl | ⟨hold, -⟩
    · exact hnew
    · exact husers user hold
  induction calls generalizing users with
  | nil => exact h
  | cons call calls ih =>
    rw [List.forall_mem_cons] at hcalls
    apply ih _ hcalls.2
    cases call with
    | get => exact h
    | create user => exact hput users user h hcalls.1
    | update user => exact hput users user h hcalls.1

theorem get_of_usersStored {users : UserTable} {docs : Collection} (h : UsersStored users docs)
    (hdated : ∀ user ∈ users, user.Dated) (userId : String) :
    firestoreUserRepository.get userId docs = inMemoryUserRepository.get userId users := by
  have hget : docs.get? userId = (users.get? userId).map userSnapshot :=
    h.get? (fun _ => rfl) userId
  unfold firestoreUserRepository inMemoryUserRepository
  dsimp only
  rw [hget]
  cases huser : users.get? userId with
  | none => rfl
  | some user =>
    have hid : user.id = userId := Table.key_of_get? huser
    have hdecoded := docToUser_userToDoc (hdated user (Table.mem_of_get? huser))
    rw [hid] at hdecoded
    unfold userSnapshot Option.map
    dsimp only
    rw [hdecoded]
    rfl

/-- Both answers are lists, with the same members. -/
def SameMembers (found listed : Except Exc (List Job)) : Prop :=
  ∃ jobs snaps, found = .ok jobs ∧ listed = .ok snaps ∧ snaps.Perm jobs

/-- After any calls the two adapters read alike, and decoding undoes encoding. Where the times
of creation differ, the listings by status are in the same order. -/
theorem firestore_refines_inMemory :
    (∀ calls,
      let jobs := inMemoryJobRepository.run Table.empty calls
      let docs := firestoreJobRepository.run Table.empty calls
      (∀ jobId, firestoreJobRepository.get jobId docs = inMemoryJobRepository.get jobId jobs) ∧
      (∀ userId, SameMembers (inMemoryJobRepository.listForUser userId jobs)
        (firestoreJobRepository.listForUser userId docs)) ∧
      ∀ statuses, SameMembers (inMemoryJobRepository.listByStatuses statuses jobs)
          (firestoreJobRepository.listByStatuses statuses docs) ∧
        ∀ found, inMemoryJobRepository.listByStatuses statuses jobs = .ok found →
          (found.map Job.createdAt).Nodup →
          firestoreJobRepository.listByStatuses statuses docs = .ok found) ∧
    (∀ calls, (∀ call ∈ calls, UserCall.Dated call) → ∀ userId,
      firestoreUserRepository.get userId (firestoreUserRepository.run Table.empty calls) =
        inMemoryUserRepository.get userId (inMemoryUserRepository.run Table.empty calls)) ∧
    (∀ job, docToJob job.id (jobToDoc job) = .ok job) ∧
    ∀ user, user.Dated → docToUser user.id (userToDoc user) = .ok user := by
  refine ⟨fun calls => ?_, fun calls hcalls => ?_, docToJob_jobToDoc,
    fun user => docToUser_userToDoc⟩
  · have h := jobsStored_run (Encodes.empty jobSnapshot) calls
    refine ⟨get_of_jobsStored h, fun userId => ?_, fun statuses => ⟨?_, ?_⟩⟩
    · exact ⟨_, _, rfl, listForUser_of_jobsStored h userId, orderedByCreation_perm _⟩
    · have hfound := List.perm_insertionSort (fun a b : Job => a.createdAt ≤ b.createdAt)
        ((inMemoryJobRepository.run Table.empty calls).rows.filter fun job => job.status ∈ statuses)
      exact ⟨_, _, rfl, listByStatuses_of_jobsStored h statuses,
        (orderedByCreation_perm _).trans hfound.symm⟩
    · intro found hfound hdistinct
      cases hfound
      rw [listByStatuses_of_jobsStored h statuses]
      congr 1
      exact orderedByCreation_eq (List.perm_insertionSort _ _) (List.pairwise_insertionSort _ _)
        hdistinct
  · apply get_of_usersStored (usersStored_run (Encodes.empty userSnapshot) calls)
    exact dated_run (fun user huser => absurd huser (Table.not_mem_empty user)) hcalls

/-- A user whose quota was reset on a leap day. -/
def leapDayUser : User :=
  { id := "u1", authProvider := .email, dailyQuotaUsed := 2, quotaResetDate := some 19782,
    createdAt := 0 }

theorem firestore_refines_inMemory_leapDay :
    firestoreUserRepository.get "u1" (firestoreUserRepository.run Table.empty [.create leapDayUser]) =
        .ok (some leapDayUser) ∧
      docToUser "u1" (userToDoc leapDayUser) = .ok leapDayUser := by
  have hdated : leapDayUser.Dated := by
    intro day hday
    cases hday
    decide
  obtain ⟨-, hget, -, hdecode⟩ := firestore_refines_inMemory
  have hcalls : ∀ call ∈ [UserCall.create leapDayUser], call.Dated := by
    intro call hcall
    rw [List.mem_singleton] at hcall
    rw [hcall]
    exact hdated
  exact ⟨hget _ hcalls "u1", hdecode leapDayUser hdated⟩

end TrainVla
