import TrainVla.Worker.JobCompletion
import TrainVla.World.Clock

/-! What the monitor of the active job does when nobody interferes. -/
namespace TrainVla.JobCompletion

open Interaction Store

def packaging? : Sigma Call.Resp → Option (Except Exc Unit)
  | ⟨.packageCheckpoint _, r⟩ => some r
  | _ => none

def upload? : Sigma Call.Resp → Option (Except Exc Unit)
  | ⟨.storageUploadFile _ _, r⟩ => some r
  | _ => none

/-- How the attempts to package the checkpoint came out. -/
def packagings (t : List (Sigma Call.Resp)) : List (Except Exc Unit) := t.filterMap packaging?

/-- How the attempts to upload it came out, in order. -/
def uploads (t : List (Sigma Call.Resp)) : List (Except Exc Unit) := t.filterMap upload?

/-- The checkpoint is left alone. -/
def Quiet (t : List (Sigma Call.Resp)) : Prop := packagings t = [] ∧ uploads t = []

theorem packagings_append (t t' : List (Sigma Call.Resp)) :
    packagings (t ++ t') = packagings t ++ packagings t' := List.filterMap_append

theorem uploads_append (t t' : List (Sigma Call.Resp)) :
    uploads (t ++ t') = uploads t ++ uploads t' := List.filterMap_append

theorem Quiet.append {t t' : List (Sigma Call.Resp)} (h : Quiet t) (h' : Quiet t') :
    Quiet (t ++ t') := by
  constructor
  · rw [packagings_append, h.1, h'.1]
    rfl
  · rw [uploads_append, h.2, h'.2]
    rfl

/-- Documents of other jobs, containers and directories are as before. -/
structure Only (jobId : String) (w w' : World) : Prop where
  others : ∀ id, id ≠ jobId → w'.jobs.get? id = w.jobs.get? id
  containers : w'.containers = w.containers
  jobDirs : w'.jobDirs = w.jobDirs

theorem Only.rfl {jobId : String} {w : World} : Only jobId w w where
  others _ _ := Eq.refl _
  containers := Eq.refl _
  jobDirs := Eq.refl _

theorem Only.trans {jobId : String} {w w₁ w₂ : World} (h : Only jobId w w₁)
    (h' : Only jobId w₁ w₂) : Only jobId w w₂ where
  others id hid := (h'.others id hid).trans (h.others id hid)
  containers := h'.containers.trans h.containers
  jobDirs := h'.jobDirs.trans h.jobDirs

theorem Only.write {jobId : String} {w : World} {job : Job} (time : ℤ) (h : job.id = jobId) :
    Only jobId w ({ w with clock := time }.writeJob job) where
  others _ hid := Table.get?_put_of_ne (h ▸ hid)
  containers := Eq.refl _
  jobDirs := Eq.refl _

/-- One more version of the same job. -/
structure Same (job job' : Job) : Prop where
  id : job'.id = job.id
  containerId : job'.containerId = job.containerId

theorem Same.trans {a b c : Job} (h : Same a b) (h' : Same b c) : Same a c where
  id := h'.id.trans h.id
  containerId := h'.containerId.trans h.containerId

/-- Failures up to the first success, or the given number of failures. -/
def UntilSuccess (n : ℕ) (attempts : List (Except Exc Unit)) : Prop :=
  ∃ failures : List (Except Exc Unit), (∀ a ∈ failures, ∃ e, a = .error e) ∧
    ((attempts = failures ++ [.ok ()] ∧ failures.length < n) ∨
      (attempts = failures ∧ failures.length = n))

theorem UntilSuccess.cons {n : ℕ} {attempts : List (Except Exc Unit)} (e : Exc)
    (h : UntilSuccess n attempts) : UntilSuccess (n + 1) (.error e :: attempts) := by
  obtain ⟨failures, hfailed, hends⟩ := h
  refine ⟨.error e :: failures, ?_, ?_⟩
  · intro a ha
    rcases List.mem_cons.mp ha with rfl | ha
    · exact ⟨e, rfl⟩
    · exact hfailed a ha
  · rcases hends with ⟨rfl, hlt⟩ | ⟨rfl, hlength⟩
    · left
      exact ⟨rfl, by rw [List.length_cons]; omega⟩
    · right
      exact ⟨rfl, by rw [List.length_cons]; omega⟩

section

variable {xs : ℕ → Choice} {w : World} {job : Job}

/-- A reading of the clock and a write. -/
theorem evalsTo_write {α : Type} {new : Job} {k : Unit → Service α} {t : List (Sigma Call.Resp)}
    {r : Except Exc α} {w' : World} {ys : ℕ → Choice} {f : ℤ → Service α}
    (hf : f (xs 0).time = perform (.jobsUpdate job new) >>= k)
    (hk : EvalsTo (World.exec false) (fun n => xs (n + 2))
      ({ w with clock := (xs 0).time }.writeJob new) (k ()) t r w' ys) :
    EvalsTo (World.exec false) xs w (perform .now >>= f)
      (⟨.now, (xs 0).time⟩ :: ⟨.jobsUpdate job new, ()⟩ :: t) r w' ys := by
  have hwrite : EvalsTo (World.exec false) (fun n => xs (n + 1)) { w with clock := (xs 0).time }
      (f (xs 0).time) (⟨.jobsUpdate job new, ()⟩ :: t) r w' ys := by
    rw [hf]
    exact .step rfl hk
  exact .step rfl hwrite

theorem enterTraining_of_training (h : job.status = .training) : enterTraining job = pure job := by
  have hnot : ¬ job.status = .initializing := by
    rw [h]
    decide
  unfold enterTraining
  rw [if_neg hnot]

theorem evalsTo_enterTraining (xs : ℕ → Choice) (w : World)
    (h : job.status = .initializing ∨ job.status = .training) :
    ∃ t job' w' ys, EvalsTo (World.exec false) xs w (enterTraining job) t (.ok job') w' ys ∧
      Quiet t ∧ Only job.id w w' ∧ Same job job' ∧ job'.status = .training := by
  rcases h with hstatus | hstatus
  · unfold enterTraining
    rw [if_pos hstatus]
    have hcan : canTransition job.status .training = true := by
      rw [hstatus]
      rfl
    have hwrite : (do
        let updated ← Prog.ofExcept (transition job .training (xs 0).time)
        perform (.jobsUpdate job updated)
        pure updated : Service Job) =
        perform (.jobsUpdate job { job with status := .training, updatedAt := (xs 0).time }) >>=
          fun _ => pure { job with status := .training, updatedAt := (xs 0).time } := by
      rw [transition_of_can hcan]
      rfl
    exact ⟨_, _, _, _, evalsTo_write hwrite .pure, ⟨rfl, rfl⟩, .write _ rfl, ⟨rfl, rfl⟩, rfl⟩
  · rw [enterTraining_of_training hstatus]
    exact ⟨[], job, w, xs, .pure, ⟨rfl, rfl⟩, .rfl, ⟨rfl, rfl⟩, hstatus⟩

theorem recordProgress_of_unchanged {latest : Progress}
    (h : progressChanged job.progress latest = false) : recordProgress job latest = pure job := by
  unfold recordProgress
  rw [h]
  rfl

/-- The document that keeps the progress seen last. -/
def recorded (now : ℤ) (latest : Progress) (job : Job) : Job :=
  { job with progress := some latest, heartbeatAt := some now }

theorem evalsTo_recordProgress_changed (xs : ℕ → Choice) (w : World) {latest : Progress}
    (h : progressChanged job.progress latest = true) :
    EvalsTo (World.exec false) xs w (recordProgress job latest)
      [⟨.now, (xs 0).time⟩, ⟨.jobsUpdate job (recorded (xs 0).time latest job), ()⟩]
      (.ok (recorded (xs 0).time latest job))
      ({ w with clock := (xs 0).time }.writeJob (recorded (xs 0).time latest job))
      fun n => xs (n + 2) := by
  unfold recordProgress
  rw [h]
  exact evalsTo_write rfl .pure

theorem evalsTo_recordProgress (xs : ℕ → Choice) (w : World) (job : Job) (latest : Progress) :
    ∃ t job' w' ys, EvalsTo (World.exec false) xs w (recordProgress job latest) t (.ok job') w' ys ∧
      Quiet t ∧ Only job.id w w' ∧ Same job job' ∧ job'.status = job.status := by
  cases h : progressChanged job.progress latest with
  | false =>
    rw [recordProgress_of_unchanged h]
    exact ⟨[], job, w, xs, .pure, ⟨rfl, rfl⟩, .rfl, ⟨rfl, rfl⟩, rfl⟩
  | true =>
    exact ⟨_, _, _, _, evalsTo_recordProgress_changed xs w h, ⟨rfl, rfl⟩, .write _ rfl, ⟨rfl, rfl⟩,
      rfl⟩

theorem evalsTo_followProgress (xs : ℕ → Choice) (w : World)
    (h : job.status = .initializing ∨ job.status = .training)
    (progress : Option Progress) (exitCode : Option ℤ) :
    ∃ t job' w' ys, EvalsTo (World.exec false) xs w (followProgress job progress exitCode) t
        (.ok job') w' ys ∧
      Quiet t ∧ Only job.id w w' ∧ Same job job' ∧
      (job'.status = .initializing ∨ job'.status = .training) := by
  unfold followProgress
  cases progress with
  | some latest =>
    obtain ⟨t, job₁, w₁, ys, henter, hquiet, honly, hsame, hstatus⟩ :=
      evalsTo_enterTraining xs w h
    obtain ⟨t', job', w', zs, hrecord, hquiet', honly', hsame', hstatus'⟩ :=
      evalsTo_recordProgress ys w₁ job₁ latest
    rw [hsame.id] at honly'
    exact ⟨t ++ t', job', w', zs, henter.bind hrecord, hquiet.append hquiet', honly.trans honly',
      hsame.trans hsame', .inr (hstatus'.trans hstatus)⟩
  | none =>
    dsimp only
    split
    · exact ⟨_, { job with heartbeatAt := some (xs 0).time }, _, _, evalsTo_write rfl .pure,
        ⟨rfl, rfl⟩, .write _ rfl, ⟨rfl, rfl⟩, h⟩
    · exact ⟨[], job, w, xs, .pure, ⟨rfl, rfl⟩, .rfl, ⟨rfl, rfl⟩, h⟩

theorem evalsTo_uploadAttempts (xs : ℕ → Choice) (w : World) (objectPath jobId : String) (n : ℕ) :
    ∃ t uploaded w' ys, EvalsTo (World.exec false) xs w (uploadAttempts objectPath jobId n) t
        (.ok uploaded) w' ys ∧
      (uploaded = true ↔ .ok () ∈ uploads t) ∧ packagings t = [] ∧ UntilSuccess n (uploads t) ∧
      Only jobId w w' ∧ w'.jobs = w.jobs := by
  induction n generalizing xs with
  | zero =>
    refine ⟨[], false, w, xs, .pure, by simp [uploads], rfl, ⟨[], by simp, ?_⟩, .rfl, rfl⟩
    right
    exact ⟨rfl, rfl⟩
  | succ n ih =>
    unfold uploadAttempts
    cases hfault : (xs 0).fault with
    | none =>
      have hexec : World.exec false (xs 0) w (.storageUploadFile objectPath jobId) =
          some (.ok (), w.uploadFile objectPath jobId (xs 0).data) := by
        simp only [World.exec, hfault]
      refine ⟨_, true, _, _, .step hexec .pure, ?_, rfl, ⟨[], by simp, ?_⟩,
        ⟨fun _ _ => rfl, rfl, rfl⟩, rfl⟩
      · simp [uploads, upload?]
      · left
        exact ⟨rfl, by simp⟩
    | some e =>
      have hexec : World.exec false (xs 0) w (.storageUploadFile objectPath jobId) =
          some (.error e, w) := by
        simp only [World.exec, hfault]
      obtain ⟨t, uploaded, w', ys, hrest, hiff, hpack, huntil, honly, hjobs⟩ :=
        ih fun n => xs (n + 1)
      have huploads : uploads (⟨.storageUploadFile objectPath jobId, .error e⟩ :: t) =
          .error e :: uploads t := rfl
      refine ⟨_, uploaded, w', ys, .step hexec hrest, ?_, hpack, ?_, honly, hjobs⟩
      · rw [huploads, hiff]
        simp
      · rw [huploads]
        exact huntil.cons e

theorem evalsTo_markFailed (xs : ℕ → Choice) (w : World) (h : job.status = .training) (message : String) (cleanup : Bool) :
    ∃ t w' ys, EvalsTo (World.exec false) xs w (markFailed job message cleanup) t
        (.ok { job with status := .failed, updatedAt := (xs 0).time, errorMessage := some message })
        w' ys ∧ Quiet t ∧
      w'.jobs = w.jobs.put
        { job with status := .failed, updatedAt := (xs 0).time, errorMessage := some message } ∧
      w'.jobDirs = if cleanup then w.jobDirs.erase job.id else w.jobDirs := by
  have hcan : canTransition job.status .failed = true := by
    rw [h]
    rfl
  have hwrite : (do
      let failed ← Prog.ofExcept (transition job .failed (xs 0).time)
      let failed := { failed with errorMessage := some message }
      perform (.jobsUpdate job failed)
      if cleanup then do
        perform (.removeJobDir job.id)
        pure failed
      else pure failed : Service Job) =
      perform (.jobsUpdate job
        { job with status := .failed, updatedAt := (xs 0).time, errorMessage := some message }) >>=
        fun _ => if cleanup then do
          perform (.removeJobDir job.id)
          pure { job with status := .failed, updatedAt := (xs 0).time, errorMessage := some message }
        else pure
          { job with status := .failed, updatedAt := (xs 0).time, errorMessage := some message } := by
    rw [transition_of_can hcan]
    rfl
  unfold markFailed
  cases cleanup with
  | true => exact ⟨_, _, _, evalsTo_write hwrite (.step rfl .pure), ⟨rfl, rfl⟩, rfl, rfl⟩
  | false => exact ⟨_, _, _, evalsTo_write hwrite .pure, ⟨rfl, rfl⟩, rfl, rfl⟩

theorem evalsTo_markCompleted (xs : ℕ → Choice) (w : World) (h : job.status = .training) (path : String) :
    ∃ t w' ys, EvalsTo (World.exec false) xs w (markCompleted job path) t
        (.ok { job with status := .completed, updatedAt := (xs 0).time,
                        checkpointGcsPath := some path }) w' ys ∧ Quiet t ∧
      w'.jobs = w.jobs.put
        { job with status := .completed, updatedAt := (xs 0).time,
                   checkpointGcsPath := some path } ∧
      w'.jobDirs = w.jobDirs.erase job.id := by
  have hcan : canTransition job.status .completed = true := by
    rw [h]
    rfl
  have hwrite : (do
      let completed ← Prog.ofExcept (transition job .completed (xs 0).time)
      let completed := { completed with checkpointGcsPath := some path }
      perform (.jobsUpdate job completed)
      perform (.removeJobDir job.id)
      pure completed : Service Job) =
      perform (.jobsUpdate job
        { job with status := .completed, updatedAt := (xs 0).time,
                   checkpointGcsPath := some path }) >>=
        fun _ => perform (.removeJobDir job.id) >>= fun _ => pure
          { job with status := .completed, updatedAt := (xs 0).time,
                     checkpointGcsPath := some path } := by
    rw [transition_of_can hcan]
    rfl
  unfold markCompleted
  exact ⟨_, _, _, evalsTo_write hwrite (.step rfl .pure), ⟨rfl, rfl⟩, rfl, rfl⟩

/-- A tick is about the first of the jobs that are monitored. -/
theorem evalsTo_tick {lib : Library} {settings : WorkerSettings} {rest : List Job}
    {t : List (Sigma Call.Resp)} {r : Except Exc (Option Job)} {w' : World} {ys : ℕ → Choice}
    (hlist : w.jobs.listByStatuses monitoredStatuses = job :: rest)
    (h : EvalsTo (World.exec false) (fun n => xs (n + 1)) w (monitor lib settings job) t r w' ys) :
    EvalsTo (World.exec false) xs w (tick lib settings)
      (⟨.jobsListByStatuses monitoredStatuses, job :: rest⟩ :: t) r w' ys := by
  have hexec : World.exec false (xs 0) w (.jobsListByStatuses monitoredStatuses) =
      some (job :: rest, w) := by
    rw [← hlist]
    rfl
  unfold tick
  exact .step hexec h

end

end TrainVla.JobCompletion
