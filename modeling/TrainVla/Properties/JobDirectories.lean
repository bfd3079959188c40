import TrainVla.System.AtomicProtocol
import TrainVla.Interaction.Invariance

/-! The directory of a job is removed when the job ends, unless it ends on one of the paths that
clean nothing up. -/
namespace TrainVla

open Interaction Store

/-- The directory has the checkpoint, which could not be uploaded. -/
def Job.KeptForInspection (job : Job) : Prop :=
  job.status = .failed ∧ job.errorMessage = some JobCompletion.uploadFailedMessage

/-- Jobs that have come to an end have no directory. -/
def Cleaned (w : World) : Prop :=
  ∀ job ∈ w.jobs, job.status.Terminal → job.KeptForInspection ∨ w.jobDirs.get? job.id = none

/-- The ways to end a job that do not look after its directory: a sweep, a start that fails, and
the cancellation of a job that was started and has no container. -/
def LeavesDir (op : Op) (seen new : Job) : Prop :=
  match op with
  | .timeoutSweep => True
  | .pollerTick => new.status = .failed ∨
      new.status = .cancelled ∧ seen.status ≠ .queued ∧ seen.container? = none
  | _ => False

/-- Where a job ends in such a way, it has no directory. -/
def Tidy (op : Op) (w : World) (c : Call) : Prop :=
  ∀ write ∈ c.rewrite?, LeavesDir op write.seen write.new → w.jobDirs.get? write.new.id = none

instance : (op : Op) → (seen new : Job) → Decidable (LeavesDir op seen new)
  | .timeoutSweep, _, _ => isTrue trivial
  | .pollerTick, _, _ => inferInstanceAs (Decidable (_ ∨ _ ∧ _ ∧ _))
  | .createJob .., _, _ | .createUploadTarget .., _, _ | .confirmZipUpload .., _, _ => isFalse id
  | .submitHfDataset .., _, _ | .listJobs _, _, _ | .requestCancel .., _, _ => isFalse id
  | .getDownloadUrl .., _, _ | .registerWithEmail .., _, _ | .loginWithEmail .., _, _ => isFalse id
  | .changePassword .., _, _ | .loginOrRegisterWithHf .., _, _ | .reconcile, _, _ => isFalse id
  | .completionTick, _, _ => isFalse id

instance (op : Op) (w : World) (c : Call) : Decidable (Tidy op w c) :=
  inferInstanceAs (Decidable (∀ _ ∈ _, _))

namespace JobDirectories

/-- Besides, every directory belongs to a job that has left the queue. -/
structure Tended (w : World) : Prop where
  cleaned : Cleaned w
  started : ∀ jobId, w.jobDirs.get? jobId ≠ none →
    ∃ job, w.jobs.get? jobId = some job ∧ job.status ≠ .queued

/-- A job is initializing when its directory is made. -/
def protocol : AtomicProtocol where
  inv _ := True
  calm _ := True
  cond _ _ _ := True
  knows st job _ :=
    match st with
    | .started _ => job.status = .initializing
    | .charged => job.status = .initializing
    | _ => True
  dated _ _ := True

theorem sound {D : Deployment} : protocol.Sound D where
  alike _ _ _ := ⟨id, id, fun _ _ _ => id⟩
  tick _ _ _ := ⟨id, id, fun _ _ _ => id⟩
  read _ _ := trivial
  next _ _ _ _ _ _ := trivial
  owned _ _ _ _ _ _ := trivial
  dated _ _ _ _ := trivial
  sawProgress _ _ _ _ _ _ _ _ _ := ⟨trivial, fun _ => trivial⟩
  polled _ _ _ _ _ _ _ := trivial
  wrote op st seen now st' new w _ hw _ _ _ _ _ := by
    refine ⟨trivial, ?_, fun _ => trivial⟩
    cases hw with
    | start _ => exact rfl
    | _ => trivial
  created _ _ _ _ _ _ _ _ _ _ _ _ _ _ _ _ := ⟨trivial, trivial⟩
  charged _ _ _ _ _ _ hk _ := ⟨trivial, hk, trivial⟩
  password _ _ _ _ := ⟨id, id⟩
  signedUp _ _ _ _ _ _ := ⟨trivial, id⟩
  refused _ _ _ _ _ := ⟨trivial, trivial, id⟩
  launched _ _ _ _ _ _ _ _ _ _ := ⟨trivial, trivial⟩
  killed _ _ _ _ := ⟨id, id, fun _ _ => trivial⟩
  occur _ _ _ _ := ⟨id, id⟩

section

variable {w w' : World}

theorem Tended.of_eq (h : Tended w) (hjobs : w'.jobs = w.jobs)
    (hdirs : ∀ jobId, w.jobDirs.get? jobId = none → w'.jobDirs.get? jobId = none) : Tended w' where
  cleaned job hjob hterminal := by
    rw [hjobs] at hjob
    exact (h.cleaned job hjob hterminal).imp_right (hdirs job.id)
  started jobId hdir := by
    rw [hjobs]
    exact h.started jobId fun hnone => hdir (hdirs jobId hnone)

/-- A document may be written if its directory is where it should be. -/
theorem Tended.write {dirs : Table JobDir String JobDir.jobId} {new : Job} (h : Tended w)
    (hdirs : ∀ jobId, w.jobDirs.get? jobId = none → dirs.get? jobId = none)
    (hterminal : new.status.Terminal → new.KeptForInspection ∨ dirs.get? new.id = none)
    (hqueued : new.status = .queued → dirs.get? new.id = none) :
    Tended { w.writeJob new with jobDirs := dirs } where
  cleaned job hjob hstatus := by
    rcases Table.mem_put.mp hjob with rfl | ⟨hjob, -⟩
    · exact hterminal hstatus
    · exact (h.cleaned job hjob hstatus).imp_right (hdirs job.id)
  started jobId hdir := by
    by_cases hid : jobId = new.id
    · subst hid
      exact ⟨new, Table.get?_put_self w.jobs new, fun hs => hdir (hqueued hs)⟩
    · obtain ⟨job, hjob, hs⟩ := h.started jobId fun hnone => hdir (hdirs jobId hnone)
      exact ⟨job, (Table.get?_put_of_ne hid).trans hjob, hs⟩

theorem Tended.makeJobDir {job : Job} (h : Tended w) (hjob : w.jobs.get? job.id = some job)
    (hstatus : job.status = .initializing) : Tended (w.makeJobDir job.id) := by
  obtain ⟨dirs, hdirs⟩ := World.makeJobDir_eq w job.id
  have hjobs : (w.makeJobDir job.id).jobs = w.jobs := by rw [hdirs]
  have hother : ∀ jobId, jobId ≠ job.id →
      (w.makeJobDir job.id).jobDirs.get? jobId = w.jobDirs.get? jobId := by
    intro jobId hne
    unfold World.makeJobDir
    split
    · rfl
    · exact Table.get?_put_of_ne hne
  constructor
  · intro other hmem hterminal
    rw [hjobs] at hmem
    have hne : other.id ≠ job.id := by
      intro hid
      rw [← hid, Table.get?_of_mem hmem] at hjob
      obtain rfl := Option.some.inj hjob
      rw [hstatus] at hterminal
      revert hterminal
      decide
    rw [hother other.id hne]
    exact h.cleaned other hmem hterminal
  · intro jobId hdir
    rw [hjobs]
    by_cases hid : jobId = job.id
    · exact ⟨job, by rw [hid, hjob], by rw [hstatus]; decide⟩
    · rw [hother jobId hid] at hdir
      exact h.started jobId hdir

end

section

variable {D : Deployment} {o : Choice} {w w' : World} {op : Op} {c : Call} {r : c.Resp}

/-- Outside of the completion tick a write that ends a job finds no directory. -/
theorem cleared_of_write {st st' : Stage} {seen new : Job} {now : ℤ} (hi : Tended w)
    (hop : op ≠ .completionTick) (hw : JobWrite op st seen now st' new)
    (hseen : w.jobs.get? new.id = some seen) (hdead : st = .dead → w.jobDirs.get? new.id = none)
    (htidy : Tidy op w (.jobsUpdate seen new)) (hterminal : new.status.Terminal) :
    w.jobDirs.get? new.id = none := by
  have hleaves : LeavesDir op seen new → w.jobDirs.get? new.id = none := htidy _ rfl
  cases hw with
  | requestCancel hactive => exact absurd hactive ((JobStatus.terminal_iff_not_active _).mp hterminal)
  | timeOut _ => exact hleaves trivial
  | cancelUnstarted _ _ hcontainer =>
    by_cases hqueued : seen.status = .queued
    · by_contra hdir
      obtain ⟨job, hjob, hs⟩ := hi.started _ hdir
      obtain rfl := Option.some.inj (hseen.symm.trans hjob)
      exact hs hqueued
    · exact hleaves (.inr ⟨rfl, hqueued, hcontainer.resolve_left hqueued⟩)
  | cancelKilled _ _ => exact hdead rfl
  | start _ =>
    have hactive : ¬ JobStatus.initializing.Terminal := by decide
    exact absurd hterminal hactive
  | failUnfetched _ => exact hleaves (.inl rfl)
  | failRefused _ => exact hleaves (.inl rfl)
  | recordContainer hs =>
    rw [hs] at hterminal
    exact absurd hterminal (by decide)
  | _ => exact absurd rfl hop

theorem tended_exec (hi : Tended w) (hop : op ≠ .completionTick)
    (hpre : (protocol.toProtocol D).pre D op w c) (htidy : Tidy op w c)
    (he : World.exec D.steady o w c = some (r, w')) : Tended w' := by
  have hframe := World.exec_frame he
  cases c with
  | jobsCreate job =>
    obtain ⟨rfl, hfresh⟩ := World.exec_jobsCreate he
    obtain ⟨-, user, owned, today, now, hnew, -⟩ := hpre
    have hdir : w.jobDirs.get? job.id = none := by
      by_contra hdir
      obtain ⟨other, hother, -⟩ := hi.started _ hdir
      rw [hfresh] at hother
      cases hother
    exact hi.write (fun _ => id) (fun _ => .inr hdir) fun _ => hdir
  | jobsUpdate seen new =>
    obtain rfl := World.exec_jobsUpdate he
    obtain ⟨st, now, st', hw, ⟨hseen, -⟩, -, -, hdead, -⟩ := hpre
    rw [← hw.id_eq] at hseen
    refine hi.write (fun _ => id)
      (fun hterminal => .inr (cleared_of_write hi hop hw hseen hdead htidy hterminal)) ?_
    intro hqueued
    by_contra hdir
    obtain ⟨job, hjob, hs⟩ := hi.started _ hdir
    obtain rfl := Option.some.inj (hseen.symm.trans hjob)
    exact hs (hw.queued_of_queued hqueued).2
  | makeJobDir jobId =>
    obtain ⟨-, job, ⟨hjob, hstatus⟩, rfl⟩ := hpre
    simp only [World.exec] at he
    split at he <;> obtain ⟨-, rfl⟩ := Prod.mk.inj (Option.some.inj he)
    · exact hi
    · exact hi.makeJobDir hjob hstatus
  | dockerRun spec =>
    obtain ⟨-, job, ⟨hjob, hstatus⟩, hspec⟩ := hpre
    have hmade := hi.makeJobDir hjob hstatus
    obtain ⟨cache, hmounts⟩ := World.prepareMounts_of_jobId hspec w o.time
    rcases World.exec_dockerRun he with ⟨-, rfl⟩ | ⟨containerId, -, -, -, rfl⟩ <;>
      rw [hmounts] <;> exact hmade.of_eq rfl fun _ => id
  | _ => exact hi.of_eq (hframe.jobs rfl) (hframe.cleared rfl)

theorem tended_occur {v : Event} (hi : Tended w) (he : World.occur v w = some w') : Tended w' := by
  refine hi.of_eq (World.occur_frame he).1 fun jobId hnone => ?_
  cases World.occurred_of_occur he with
  | @progress dir content hdir =>
    show (w.jobDirs.put { dir with progress := some content }).get? jobId = none
    rw [Table.get?_put, if_neg, hnone]
    rintro rfl
    rw [hdir] at hnone
    cases hnone
  | _ => exact hnone

end

/-! The completion tick ends a job first and removes its directory afterwards. -/
section

open JobCompletion

variable {D : Deployment} {α : Type} {Q : α → Prop}

theorem keeps_quiet {c : Call} {k : c.Resp → Service α} (hjobs : c.writesJobs = false)
    (hdirs : c.makesJobDir = false)
    (hk : ∀ a, D.Possible c a → Keeps (World.exec D.steady) Tended (k a) Q) :
    Keeps (World.exec D.steady) Tended (perform c >>= k) Q := by
  refine .perform (fun o w a w' hi he => ?_) hk
  have hframe := World.exec_frame he
  exact hi.of_eq (hframe.jobs hjobs) (hframe.cleared hdirs)

/-- A write that does not end the job. -/
theorem keeps_update {seen new : Job} {k : Unit → Service α} (hnew : new.status ∈ monitoredStatuses)
    (hk : Keeps (World.exec D.steady) Tended (k ()) Q) :
    Keeps (World.exec D.steady) Tended (perform (.jobsUpdate seen new) >>= k) Q := by
  have hstatus : ¬ new.status.Terminal ∧ new.status ≠ .queued := by
    revert hnew
    cases new.status <;> decide
  refine .perform (fun o w a w' hi he => ?_) fun _ _ => hk
  obtain rfl := World.exec_jobsUpdate he
  exact hi.write (fun _ => id) (fun h => absurd h hstatus.1) fun h => absurd h hstatus.2

/-- A write that ends the job, and the removal of its directory. -/
theorem keeps_end {seen new : Job} {k : Unit → Service α} (hid : new.id = seen.id)
    (hk : Keeps (World.exec D.steady) Tended (k ()) Q) :
    Keeps (World.exec D.steady) Tended
      (perform (.jobsUpdate seen new) >>= fun _ => perform (.removeJobDir seen.id) >>= k) Q := by
  intro w r w' hi hends
  obtain ⟨o₁, a, w₁, hwrite, hends⟩ := hends.of_perform
  obtain ⟨o₂, u, w₂, hremove, hends⟩ := hends.of_perform
  obtain rfl := World.exec_jobsUpdate hwrite
  obtain ⟨-, rfl⟩ := Prod.mk.inj (Option.some.inj hremove)
  have hgone : (w.jobDirs.erase seen.id).get? new.id = none := by
    rw [Table.get?_erase, if_pos hid]
  have hkept : ∀ jobId, w.jobDirs.get? jobId = none →
      (w.jobDirs.erase seen.id).get? jobId = none := by
    intro jobId hnone
    rw [Table.get?_erase, hnone, ite_self]
  have hclean : Tended { w.writeJob new with jobDirs := w.jobDirs.erase seen.id } :=
    hi.write hkept (fun _ => .inr hgone) fun _ => hgone
  exact hk _ r w' hclean hends

theorem keeps_enterTraining {job : Job} (hjob : job.status ∈ monitoredStatuses) :
    Keeps (World.exec D.steady) Tended (enterTraining job)
      fun job' => job'.status ∈ monitoredStatuses := by
  unfold enterTraining
  split
  · refine keeps_quiet rfl rfl fun now _ => .ofExcept fun updated hupdated => ?_
    have hstatus : updated.status ∈ monitoredStatuses := by
      rw [(transition_eq_ok hupdated).2]
      exact List.mem_cons_of_mem _ List.mem_cons_self
    exact keeps_update hstatus (.pure hstatus)
  · exact .pure hjob

theorem keeps_followProgress {job : Job} {progress : Option Progress} {exitCode : Option ℤ}
    (hjob : job.status ∈ monitoredStatuses) :
    Keeps (World.exec D.steady) Tended (followProgress job progress exitCode)
      fun job' => job'.status ∈ monitoredStatuses := by
  unfold followProgress
  split
  · refine .bind (keeps_enterTraining hjob) fun job' hjob' => ?_
    unfold recordProgress
    split
    · exact .pure hjob'
    · exact keeps_quiet rfl rfl fun now _ => keeps_update hjob' (.pure hjob')
  · split
    · exact keeps_quiet rfl rfl fun now _ => keeps_update hjob (.pure hjob)
    · exact .pure hjob

theorem keeps_markFailed {job : Job} {message : String} {cleanup : Bool}
    (h : cleanup = false → message = uploadFailedMessage) :
    Keeps (World.exec D.steady) Tended (markFailed job message cleanup) fun _ => True := by
  unfold markFailed
  refine keeps_quiet rfl rfl fun now _ => .ofExcept fun failed hfailed => ?_
  obtain ⟨-, rfl⟩ := transition_eq_ok hfailed
  cases cleanup with
  | true => exact keeps_end rfl (.pure trivial)
  | false =>
    refine .perform (fun o w a w' hi he => ?_) fun _ _ => .pure trivial
    obtain rfl := World.exec_jobsUpdate he
    exact hi.write (fun _ => id) (fun _ => .inl ⟨rfl, congrArg some (h rfl)⟩) nofun

theorem keeps_markCompleted {job : Job} {checkpointGcsPath : String} :
    Keeps (World.exec D.steady) Tended (markCompleted job checkpointGcsPath) fun _ => True := by
  unfold markCompleted
  refine keeps_quiet rfl rfl fun now _ => .ofExcept fun completed hcompleted => ?_
  obtain ⟨-, rfl⟩ := transition_eq_ok hcompleted
  exact keeps_end rfl (.pure trivial)

theorem keeps_uploadAttempts {objectPath jobId : String} {n : ℕ} :
    Keeps (World.exec D.steady) Tended (uploadAttempts objectPath jobId n) fun _ => True := by
  induction n with
  | zero => exact .pure trivial
  | succ n ih =>
    refine keeps_quiet rfl rfl fun r _ => ?_
    cases r with
    | error e => exact ih
    | ok u => exact .pure trivial

theorem keeps_finalize {job : Job} {exitCode : ℤ} (hjob : job.status ∈ monitoredStatuses) :
    Keeps (World.exec D.steady) Tended (finalize D.settings job exitCode) fun _ => True := by
  unfold finalize
  refine .bind (keeps_enterTraining hjob) fun job' _ => ?_
  split
  · unfold getLogs
    split
    · exact keeps_quiet rfl rfl fun logs _ => keeps_markFailed nofun
    · exact keeps_markFailed nofun
  · refine keeps_quiet rfl rfl fun r _ => ?_
    cases r with
    | error e => exact keeps_markFailed nofun
    | ok u =>
      refine .bind keeps_uploadAttempts fun uploaded _ => ?_
      cases uploaded with
      | true => exact keeps_markCompleted
      | false => exact keeps_markFailed fun _ => rfl

theorem keeps_monitor {job : Job} (hjob : job.status ∈ monitoredStatuses) :
    Keeps (World.exec D.steady) Tended (monitor D.lib D.settings job) fun _ => True := by
  unfold monitor
  refine keeps_quiet rfl rfl fun file _ => .ofExcept fun progress _ => ?_
  unfold getExitCode
  split
  · refine keeps_quiet rfl rfl fun exitCode _ => ?_
    refine .bind (keeps_followProgress hjob) fun job' hjob' => ?_
    cases exitCode with
    | none => exact .pure trivial
    | some code => exact .bind (keeps_finalize hjob') fun _ _ => .pure trivial
  · have hfollow := @keeps_followProgress D job progress none hjob
    exact hfollow.bind fun _ _ => .pure trivial

theorem keeps_completionTick :
    Keeps (World.exec D.steady) Tended (Op.completionTick.code D) fun _ => True := by
  have htick : Keeps (World.exec D.steady) Tended (tick D.lib D.settings) fun _ => True := by
    refine keeps_quiet rfl rfl fun jobs hjobs => ?_
    cases jobs with
    | nil => exact .pure trivial
    | cons job jobs => exact keeps_monitor (hjobs.status_of_listed List.mem_cons_self)
  exact htick.bind fun _ _ => .pure trivial

end

theorem tended_run {D : Deployment} {w : World} {ls : List SysLabel} {rs : List SysRecord}
    {c : SysConf} (hw : Tended w) (hl : ∀ l ∈ ls, l.Uninterrupted)
    (hr : D.system.run (.initial w) ls = some (rs, c))
    (htidy : ∀ r ∈ rs, Tidy r.op r.before r.call) : Tended c.state := by
  have hknown := (sound.run trivial trivial hl hr fun _ _ _ => trivial).1
  refine Machine.run_wholes hl hr (fun op xs w₁ rs' p w₂ hd hfinished hsub hi => ?_)
    (fun v w₁ w₂ he hi => tended_occur hi he) hw
  by_cases hop : op = .completionTick
  · subst hop
    obtain ⟨r, hends⟩ := ends_of_drive hd hfinished
    exact (keeps_completionTick w₁ r w₂ hi hends).1
  · refine Machine.drive_states hd (fun r hmem hbefore => ?_) hi
    have hown : r.op ≠ .completionTick := Machine.drive_op (P := fun op => op ≠ .completionTick) hd hop r hmem
    obtain ⟨-, hpre, o, a, he⟩ := hknown r (hsub r hmem)
    exact tended_exec hbefore hown hpre (htidy r (hsub r hmem)) he

end JobDirectories

/-- In schedules of whole operations jobs that have come to an end have no directory, as long as
no sweep, no failed start and no cancellation without a container ends a job that has one. -/
theorem finished_jobs_cleaned (D : Deployment) {w : World} {ls : List SysLabel}
    {rs : List SysRecord} {c : SysConf} (hw : ∀ jobId, w.jobDirs.get? jobId = none)
    (hl : ∀ l ∈ ls, l.Uninterrupted) (hr : D.system.run (.initial w) ls = some (rs, c))
    (htidy : ∀ r ∈ rs, Tidy r.op r.before r.call) : Cleaned c.state := by
  have hinitial : JobDirectories.Tended w :=
    ⟨fun job _ _ => .inr (hw job.id), fun jobId hdir => absurd (hw jobId) hdir⟩
  exact (JobDirectories.tended_run hinitial hl hr htidy).cleaned

namespace JobDirectories

def submitted : List SysLabel :=
  [.whole (.createJob "user" .act .hfHub "org/dataset" 100) (List.replicate 6 { text := "j" })]

/-- The container of the job cannot be started. -/
def refusals : List Choice :=
  List.replicate 10 { text := "" } ++
    List.replicate 3 { fault := some (.other "APIError" "could not select device driver") }

/-- A container that is started and trains to its end. -/
def trained : List SysLabel :=
  submitted ++ [.whole .pollerTick (List.replicate 12 { text := "c" }),
    .event (.containerExits "c" 0), .whole .pollerTick (List.replicate 3 {}),
    .whole .completionTick (List.replicate 10 {})]

def leaks (w : World) (jobId : String) : Bool :=
  (w.jobDirs.get? jobId).isSome && (w.jobs.get? jobId).any fun job =>
    job.status = .failed && job.errorMessage != some JobCompletion.uploadFailedMessage

theorem not_cleaned_of_leaks {w : World} {jobId : String} (h : leaks w jobId = true) :
    ¬ Cleaned w := by
  intro hclean
  obtain ⟨hdir, hjob⟩ := Bool.and_eq_true_iff.mp h
  obtain ⟨job, hget, hrest⟩ := (Option.any_eq_true _ _).mp hjob
  obtain ⟨hstatus, hmessage⟩ := Bool.and_eq_true_iff.mp hrest
  have hfailed : job.status = .failed := of_decide_eq_true hstatus
  have hterminal : job.status.Terminal := by
    rw [hfailed]
    decide
  rcases hclean job (Table.mem_of_get? hget) hterminal with ⟨-, hkept⟩ | hnone
  · exact bne_iff_ne.mp hmessage hkept
  · rw [Table.key_of_get? hget] at hnone
    rw [hnone] at hdir
    cases hdir

end JobDirectories

open JobDirectories

/-- The directory of a job whose container could not be started stays. -/
theorem finished_jobs_cleaned_fails : ¬ ∀ (ls : List SysLabel) (xs ys : List Choice)
    (rs : List SysRecord) (c : SysConf), (∀ l ∈ ls, l.Uninterrupted) →
    Deployment.sample.system.run (.initial .sample)
      (ls ++ [.whole .pollerTick xs, .whole .completionTick ys]) = some (rs, c) →
    Cleaned c.state := by
  intro h
  have hrun : (Deployment.sample.system.run (.initial .sample)
      (submitted ++ [.whole .pollerTick refusals, .whole .completionTick [{}]])).any
        (fun out => leaks out.2.state "j") = true := by decide +kernel
  obtain ⟨⟨rs, c⟩, hr, hleaks⟩ := (Option.any_eq_true _ _).mp hrun
  have hl : ∀ l ∈ submitted, l.Uninterrupted := by simp [submitted, Label.Uninterrupted]
  exact not_cleaned_of_leaks hleaks (h submitted refusals [{}] rs c hl hr)

theorem finished_jobs_cleaned_trained : ∃ rs c,
    Deployment.sample.system.run (.initial .sample) trained = some (rs, c) ∧
      (∃ job ∈ c.state.jobs, job.status = .completed) ∧ Cleaned c.state := by
  have hrun : (Deployment.sample.system.run (.initial .sample) trained).any (fun out =>
      (out.2.state.jobs.rows.any fun job => job.status = .completed) &&
        out.1.all fun r => Tidy r.op r.before r.call) = true := by decide +kernel
  obtain ⟨⟨rs, c⟩, hr, hrest⟩ := (Option.any_eq_true _ _).mp hrun
  obtain ⟨hdone, htidy⟩ := Bool.and_eq_true_iff.mp hrest
  obtain ⟨job, hjob, hstatus⟩ := List.any_eq_true.mp hdone
  have hl : ∀ l ∈ trained, l.Uninterrupted := by simp [trained, submitted, Label.Uninterrupted]
  have hw : ∀ jobId, World.sample.jobDirs.get? jobId = none := fun _ => rfl
  refine ⟨rs, c, hr, ⟨job, hjob, of_decide_eq_true hstatus⟩, ?_⟩
  exact finished_jobs_cleaned .sample hw hl hr fun r hmem =>
    of_decide_eq_true (List.all_eq_true.mp htidy r hmem)

end TrainVla
