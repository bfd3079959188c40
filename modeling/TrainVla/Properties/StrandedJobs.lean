import TrainVla.System.Soundness
import TrainVla.System.JobWrites
import TrainVla.Store.Copies

/-! A job whose container is gone, or was never recorded, is failed by the sweep once its
heartbeat is old enough, as long as no completion tick takes the missing container for one that
is running. -/
namespace TrainVla

open Interaction Store

namespace StrandedJobs

def Readable (D : Deployment) (w : World) (jobId : String) : Prop :=
  ∃ progress, ProgressReader.readProgress D.lib (w.progressFile jobId) = .ok (some progress)

/-- The document names a container that docker knows. -/
def Present (w : World) (job : Job) : Prop :=
  ∃ containerId, job.container? = some containerId ∧ w.containers.stateOf containerId ≠ .removed

def Alive (w : World) (job : Job) : Prop :=
  ∃ containerId, job.container? = some containerId ∧ w.containers.stateOf containerId = .running

/-- A completion tick that finds a job initializing without progress finds its container, too. -/
def Attended (D : Deployment) (op : Op) (w : World) : Call → Prop
  | .readProgressFile jobId => op = .completionTick → ∀ job, w.jobs.get? jobId = some job →
    job.status = .initializing →
    ProgressReader.readProgress D.lib (w.progressFile jobId) = .ok none → Present w job
  | _ => True

/-- A completion tick advances the heartbeat of an initializing job for a container that runs. -/
def BeatsAlive (r : SysRecord) : Prop :=
  r.op = .completionTick → ∀ write ∈ r.call.rewrite?, ∀ job,
    r.before.jobs.get? write.new.id = some job → job.status = .initializing →
    write.new.heartbeatAt ≠ job.heartbeatAt → Alive r.before job

/-- As long as the job is initializing, it shows no progress, and its container is not there or
not recorded. -/
def Stranded (D : Deployment) (jobId : String) (w : World) : Prop :=
  ∀ job, w.jobs.get? jobId = some job → job.status = .initializing →
    ¬ Readable D w jobId ∧ ¬ Present w job

def Initializing (jobId : String) (w : World) : Prop :=
  ∃ job, w.jobs.get? jobId = some job ∧ job.status = .initializing

def Ended (jobId : String) (w : World) : Prop :=
  ∃ job, w.jobs.get? jobId = some job ∧ job.status.Terminal

/-- No heartbeat is ahead of the clock, and an initializing job has one. -/
structure Beats (job : Job) (clock : ℤ) : Prop where
  le : ∀ heartbeat, job.heartbeatAt = some heartbeat → heartbeat ≤ clock
  some : job.status = .initializing → job.heartbeatAt ≠ none

/-- What requests and sweeps keep of a job while the poller is at something. -/
structure Kept (old new : Job) : Prop where
  heartbeat : new.heartbeatAt = old.heartbeatAt
  queued : new.status = .queued ↔ old.status = .queued

/-- What a completion tick knows of the job that it monitors. -/
def Knows (D : Deployment) (w : World) (job : Job) : Stage → Prop
  | .sawProgress progress => (progress ≠ none → Readable D w job.id) ∧
    (progress = none → job.status = .initializing → Present w job)
  | .polled progress exitCode => (progress ≠ none → Readable D w job.id) ∧
    (exitCode ≠ none → Present w job) ∧
    (progress = none → exitCode = none → job.status = .initializing → Alive w job)
  | _ => True

/-- A document that an operation holds. Where nobody interrupts the operation, it is what is
stored. -/
structure Held (D : Deployment) (op : Op) (st : Stage) (job : Job) (w : World) : Prop where
  copy : Table.Copy Kept job w.jobs
  beats : Beats job w.clock
  exact : op.interrupted = false → w.jobs.get? job.id = some job ∧ Knows D w job st

def protocol (D : Deployment) : Protocol where
  inv w := ∀ job ∈ w.jobs, Beats job w.clock
  rely op w w' := (Table.Evolves Kept w.jobs w'.jobs ∧ w.clock ≤ w'.clock) ∧
    (op.interrupted = false → w' = w)
  cond := Attended D
  holds op f w :=
    match f with
    | .time now => now ≤ w.clock
    | .job st job => Held D op st job w
    | _ => True

theorem Kept.rfl (job : Job) : Kept job job := ⟨Eq.refl _, Iff.rfl⟩

theorem Kept.trans (a b c : Job) (h₁ : Kept a b) (h₂ : Kept b c) : Kept a c :=
  ⟨h₂.heartbeat.trans h₁.heartbeat, h₂.queued.trans h₁.queued⟩

theorem Beats.mono {job : Job} {clock clock' : ℤ} (h : Beats job clock) (hle : clock ≤ clock') :
    Beats job clock' :=
  ⟨fun heartbeat hb => (h.le heartbeat hb).trans hle, h.some⟩

/-- Either the heartbeat is set to now, or it stays, in a document that was initializing if it is
now. -/
theorem heartbeat_of_write {op : Op} {st st' : Stage} {seen new : Job} {now : ℤ}
    (hw : JobWrite op st seen now st' new) : new.heartbeatAt = some now ∨
      new.heartbeatAt = seen.heartbeatAt ∧
        (new.status = .initializing → seen.status = .initializing) := by
  cases hw with
  | requestCancel _ => exact .inr ⟨rfl, id⟩
  | start _ => exact .inl rfl
  | recordContainer _ => exact .inr ⟨rfl, id⟩
  | recordProgress _ => exact .inl rfl
  | markAlive _ => exact .inl rfl
  | _ => exact .inr ⟨rfl, nofun⟩

theorem Beats.write {op : Op} {st st' : Stage} {seen new : Job} {now clock : ℤ}
    (h : Beats seen clock) (hw : JobWrite op st seen now st' new) (hnow : now ≤ clock) :
    Beats new clock := by
  have hbeat := heartbeat_of_write hw
  constructor
  · intro heartbeat hb
    rcases hbeat with hset | ⟨hsame, -⟩
    · rw [hset] at hb
      have := Option.some.inj hb
      omega
    · rw [hsame] at hb
      exact h.le heartbeat hb
  · intro hs
    rcases hbeat with hset | ⟨hsame, hseen⟩
    · rw [hset]
      exact nofun
    · rw [hsame]
      exact h.some (hseen hs)

theorem Beats.of_new {user : User} {jobs : List Job} {today now clock : ℤ} {job : Job}
    (h : NewJob user jobs today now job) : Beats job clock := by
  have heq := h.eq
  constructor
  · intro heartbeat hb
    rw [heq] at hb
    cases hb
  · intro hs
    rw [h.status_eq] at hs
    cases hs

/-- A request or a sweep leaves the heartbeat alone, and takes no job out of the queue. -/
theorem kept_of_request {op : Op} {st st' : Stage} {seen new : Job} {now : ℤ}
    (hw : JobWrite op st seen now st' new) (hop : op.threaded = false) : Kept seen new := by
  cases hw with
  | requestCancel _ => exact ⟨rfl, Iff.rfl⟩
  | timeOut htimeout =>
    refine ⟨rfl, ?_⟩
    rcases status_of_isTimedOut htimeout with hs | hs <;> simp [hs]
  | _ => cases hop

theorem running_of_getExitCode {containers : Containers} {containerId : String}
    (h : containers.getExitCode containerId = none) (hthere : containers.stateOf containerId ≠ .removed) :
    containers.stateOf containerId = .running := by
  unfold Containers.getExitCode at h
  cases hstate : containers.stateOf containerId with
  | running => rfl
  | exited code =>
    rw [hstate] at h
    cases h
  | removed => exact absurd hstate hthere

theorem there_of_getExitCode {containers : Containers} {containerId : String}
    (h : containers.getExitCode containerId ≠ none) :
    containers.stateOf containerId ≠ .removed := by
  intro hremoved
  unfold Containers.getExitCode at h
  rw [hremoved] at h
  exact h rfl

/-- The files of the job and the containers are all that matters. -/
theorem Knows.of_eq {D : Deployment} {w w' : World} {job : Job} {st : Stage} (h : Knows D w job st)
    (hcontainers : w'.containers = w.containers)
    (hprogress : w'.progressFile job.id = w.progressFile job.id) : Knows D w' job st := by
  have hreadable : Readable D w job.id → Readable D w' job.id := by
    unfold Readable
    rw [hprogress]
    exact id
  have hpresent : Present w job → Present w' job := by
    unfold Present
    rw [hcontainers]
    exact id
  have halive : Alive w job → Alive w' job := by
    unfold Alive
    rw [hcontainers]
    exact id
  cases st with
  | sawProgress progress =>
    obtain ⟨hread, hnone⟩ := h
    exact ⟨fun hp => hreadable (hread hp), fun hp hs => hpresent (hnone hp hs)⟩
  | polled progress exitCode =>
    obtain ⟨hread, hexit, hnone⟩ := h
    exact ⟨fun hp => hreadable (hread hp), fun hx => hpresent (hexit hx),
      fun hp hx hs => halive (hnone hp hx hs)⟩
  | _ => trivial

section

variable {D : Deployment} {op : Op} {o : Choice} {w w' : World} {c : Call} {r : c.Resp}

theorem exec_clock (hsteady : D.steady = true) (he : World.exec D.steady o w c = some (r, w')) :
    w.clock ≤ w'.clock := by
  by_cases hclock : c.movesClock = false
  · exact ((World.exec_frame he).clock hclock).ge
  · cases c with
    | now =>
      obtain ⟨rfl, hle⟩ := World.exec_now he
      exact hle hsteady
    | _ => exact absurd rfl hclock

theorem Held.of_frame {st st' : Stage} {job : Job} (h : Held D op st job w)
    (hjobs : w'.jobs = w.jobs) (hclock : w.clock ≤ w'.clock)
    (hknows : op.interrupted = false → Knows D w job st → Knows D w' job st') :
    Held D op st' job w' where
  copy := by
    rw [hjobs]
    exact h.copy
  beats := h.beats.mono hclock
  exact hop := by
    obtain ⟨hstored, hk⟩ := h.exact hop
    rw [hjobs]
    exact ⟨hstored, hknows hop hk⟩

theorem Held.of_stored {st : Stage} {job : Job} (hi : (protocol D).inv w) (hjob : job ∈ w.jobs)
    (hk : Knows D w job st) : Held D op st job w where
  copy := .of_mem .rfl hjob
  beats := hi job hjob
  exact _ := ⟨Table.get?_of_mem hjob, hk⟩

/-- The document that a write leaves behind. -/
theorem Held.write {st st' : Stage} {seen new : Job} {now : ℤ} (h : Held D op st seen w)
    (hw : JobWrite op st seen now st' new) (hnow : now ≤ w.clock) :
    Held D op st' new (w.writeJob new) where
  copy := .put_self .rfl w.jobs new
  beats := h.beats.write hw hnow
  exact hop := by
    refine ⟨Table.get?_put_self w.jobs new, ?_⟩
    have hk : Knows D w seen st := (h.exact hop).2
    cases hw with
    | enterTraining _ _ => exact ⟨hk.1, hk.2.1, fun _ _ hs => by cases hs⟩
    | recordProgress hs =>
      exact ⟨hk.1, hk.2.1, fun _ _ hs' => absurd (hs.symm.trans hs') (by decide)⟩
    | markAlive _ => exact hk
    | _ => trivial

theorem saw_progress {job : Job} {progress : Option Progress} (hstored : w.jobs.get? job.id = some job)
    (hprogress : ProgressReader.readProgress D.lib (w.progressFile job.id) = .ok progress)
    (hc : Attended D .completionTick w (.readProgressFile job.id)) :
    Knows D w job (.sawProgress progress) := by
  constructor
  · intro hp
    obtain ⟨p, rfl⟩ := Option.ne_none_iff_exists'.mp hp
    exact ⟨p, hprogress⟩
  · intro hp hs
    rw [hp] at hprogress
    exact hc rfl job hstored hs hprogress

/-- The exit code tells whether a container that is there is running. -/
theorem polled_of_sawProgress {job : Job} {progress : Option Progress} {containerId : String}
    (hk : Knows D w job (.sawProgress progress)) (hcontainer : job.container? = some containerId) :
    Knows D w job (.polled progress (w.containers.getExitCode containerId)) := by
  obtain ⟨hread, hpresent⟩ := hk
  refine ⟨hread, fun hexit => ⟨containerId, hcontainer, there_of_getExitCode hexit⟩, ?_⟩
  intro hp hexit hs
  obtain ⟨id, hid, hthere⟩ := hpresent hp hs
  obtain rfl := Option.some.inj (hcontainer.symm.trans hid)
  exact ⟨containerId, hcontainer, running_of_getExitCode hexit hthere⟩

theorem valid (hsteady : D.steady = true) : (protocol D).Valid D where
  preorders := by
    constructor
    · exact fun op w => ⟨⟨.rfl .rfl, le_rfl⟩, fun _ => rfl⟩
    · intro op w₁ w₂ w₃ h₁ h₂
      refine ⟨⟨h₁.1.1.trans .trans h₂.1.1, h₁.1.2.trans h₂.1.2⟩, fun hop => ?_⟩
      rw [h₂.2 hop, h₁.2 hop]
  stable op f w w' hrely _ hf := by
    obtain ⟨⟨hjobs, hclock⟩, hsame⟩ := hrely
    cases f with
    | time now => exact le_trans hf hclock
    | job st job =>
      have hf : Held D op st job w := hf
      refine ⟨hf.copy.evolve hjobs Kept.trans, hf.beats.mono hclock, fun hop => ?_⟩
      rw [hsame hop]
      exact hf.exact hop
    | _ => trivial
  survive op o w c r w' f hi hpre _ he hs hf := by
    have hclock := exec_clock hsteady he
    have hframe := World.exec_frame he
    cases f with
    | time now => exact le_trans hf hclock
    | job st job =>
      have hf : Held D op st job w := hf
      cases keepsDocument_of_survives hs with
      | quiet hjobs _ hcontainers hdir =>
        exact hf.of_frame (hframe.jobs hjobs) hclock fun _ hk =>
          hk.of_eq (hframe.containers hcontainers) (hframe.progress hdir job.id)
      | updated hst hne =>
        subst hst
        obtain rfl := World.exec_jobsUpdate he
        refine ⟨hf.copy.put_of_ne hne, hf.beats, fun hop => ⟨?_, trivial⟩⟩
        exact (Table.get?_put_of_ne hne).trans (hf.exact hop).1
      | killed hst =>
        subst hst
        exact hf.of_frame (hframe.jobs rfl) hclock fun _ _ => trivial
      | removed hst =>
        rcases hst with rfl | rfl <;> exact hf.of_frame (hframe.jobs rfl) hclock fun _ _ => trivial
    | _ => trivial
  learn op o w c r w' fs f hi hpre hc he hl hfs := by
    have hclock := exec_clock hsteady he
    have hframe := World.exec_frame he
    -- held before, and nothing is known of it in the later stage
    have hpromote : ∀ {st st' job}, c.writesJobs = false → .job st job ∈ fs →
        (∀ w, Knows D w job st') → Held D op st' job w' := fun hjobs hmem hk =>
      Held.of_frame (hfs _ hmem) (hframe.jobs hjobs) hclock fun _ _ => hk w'
    cases hl with
    | time =>
      obtain ⟨rfl, -⟩ := World.exec_now he
      exact le_rfl
    | got =>
      obtain ⟨hget, rfl⟩ := Prod.mk.inj (Option.some.inj he)
      exact .of_stored hi (Table.mem_of_get? hget) trivial
    | found hmem =>
      obtain ⟨rfl, rfl⟩ := Prod.mk.inj (Option.some.inj he)
      exact .of_stored hi (JobTable.mem_listByStatuses.mp hmem).1 trivial
    | next =>
      obtain ⟨hjobs, rfl⟩ := Prod.mk.inj (Option.some.inj he)
      have hmem := JobTable.mem_listByStatuses.mp (hjobs ▸ List.mem_cons_self ..)
      exact .of_stored hi hmem.1 trivial
    | wrote h hjob htime _ =>
      obtain rfl := World.exec_jobsUpdate he
      exact Held.write (hfs _ hjob) h (hfs _ htime)
    | owned => exact hpromote rfl (List.mem_singleton_self _) fun _ => trivial
    | charged => exact hpromote rfl (List.mem_singleton_self _) fun _ => trivial
    | launched _ => exact hpromote rfl (List.mem_singleton_self _) fun _ => trivial
    | refused _ => exact hpromote rfl (List.mem_singleton_self _) fun _ => trivial
    | killed _ => exact hpromote rfl (List.mem_singleton_self _) fun _ => trivial
    | sawProgress hprogress =>
      obtain ⟨hfile, rfl⟩ := Prod.mk.inj (Option.some.inj he)
      rw [← hfile] at hprogress
      have hf := hfs _ (List.mem_singleton_self _)
      exact Held.of_frame hf rfl le_rfl fun hop _ => saw_progress (hf.exact hop).1 hprogress hc
    | sawNoContainer hprogress hcontainer =>
      obtain ⟨hfile, rfl⟩ := Prod.mk.inj (Option.some.inj he)
      rw [← hfile] at hprogress
      have hf := hfs _ (List.mem_singleton_self _)
      refine Held.of_frame hf rfl le_rfl fun hop _ => ?_
      obtain ⟨hread, hpresent⟩ := saw_progress (hf.exact hop).1 hprogress hc
      refine ⟨hread, fun hexit => absurd rfl hexit, fun hp _ hs => ?_⟩
      obtain ⟨containerId, hid, -⟩ := hpresent hp hs
      rw [hcontainer] at hid
      cases hid
    | polled hcontainer =>
      obtain ⟨rfl, rfl⟩ := Prod.mk.inj (Option.some.inj he)
      refine Held.of_frame (hfs _ (List.mem_singleton_self _)) rfl le_rfl fun _ hk => ?_
      exact polled_of_sawProgress hk hcontainer
    | _ => trivial

theorem overlap_interrupted {op' : Op} (h : Overlap D.system MonitorAtomic op op') :
    op.threaded = false ∧ op'.interrupted = true := by
  obtain ⟨hfly, hthread⟩ := h
  rcases hfly with ⟨-, hspawn⟩ | ⟨hthreaded, hstart⟩
  · exact hspawn.elim
  · refine ⟨?_, hstart⟩
    cases hop : op.threaded with
    | false => rfl
    | true => exact absurd hthreaded (by rw [hthread hop]; decide)

theorem sound (hsteady : D.steady = true) : (protocol D).Sound D MonitorAtomic where
  toValid := valid hsteady
  exec op o w c r w' hi hpre _ he := by
    have hclock := exec_clock hsteady he
    have hrely : (op.threaded = false → Table.Evolves Kept w.jobs w'.jobs) →
        ∀ op', Overlap D.system MonitorAtomic op op' → (protocol D).rely op' w w' := by
      intro haside op' hover
      obtain ⟨hop, hop'⟩ := overlap_interrupted hover
      refine ⟨⟨haside hop, hclock⟩, fun hatomic => ?_⟩
      rw [hop'] at hatomic
      cases hatomic
    by_cases hjobs : c.writesJobs = false
    · have hsame := (World.exec_frame he).jobs hjobs
      constructor
      · intro job hjob
        rw [hsame] at hjob
        exact (hi job hjob).mono hclock
      · apply hrely
        intro _
        rw [hsame]
        exact .rfl .rfl
    · cases c with
      | jobsCreate job =>
        obtain ⟨rfl, hfresh⟩ := World.exec_jobsCreate he
        obtain ⟨-, user, jobs, today, now, hnew, -⟩ := hpre
        constructor
        · intro stored hstored
          rcases Table.mem_put.mp hstored with rfl | ⟨hold, -⟩
          · exact .of_new hnew
          · exact hi stored hold
        · exact hrely fun _ => Table.evolves_put_fresh .rfl hfresh
      | jobsUpdate seen new =>
        obtain rfl := World.exec_jobsUpdate he
        obtain ⟨st, now, st', hw, hheld, hnow, -⟩ := hpre
        have hheld : Held D op st seen w := hheld
        constructor
        · intro stored hstored
          rcases Table.mem_put.mp hstored with rfl | ⟨hold, -⟩
          · exact hheld.beats.write hw hnow
          · exact hi stored hold
        · apply hrely
          intro hop
          have hexact := (hheld.exact (Op.interrupted_of_threaded hop)).1
          apply Table.evolves_put .rfl
          intro stored hstored
          rw [hw.id_eq, hexact] at hstored
          obtain rfl := Option.some.inj hstored
          exact kept_of_request hw hop
      | _ => exact absurd rfl hjobs
  occur v w w' _ hi he := by
    obtain ⟨hjobs, -, hclock, -⟩ := World.occur_frame he
    constructor
    · intro job hjob
      rw [hjobs] at hjob
      rw [hclock]
      exact hi job hjob
    · intro op' hfly
      refine ⟨⟨?_, hclock.ge⟩, fun hatomic => ?_⟩
      · rw [hjobs]
        exact .rfl .rfl
      · rcases hfly with ⟨-, hspawn⟩ | ⟨-, hstart⟩
        · exact hspawn.elim
        · have hstart : op'.interrupted = true := hstart
          rw [hatomic] at hstart
          cases hstart

/-- What is known of a write makes the heartbeats of completion ticks those of live containers. -/
theorem beatsAlive_of_known {r : SysRecord}
    (hr : r.Known D.system ((protocol D).outline D)) : BeatsAlive r := by
  obtain ⟨-, hpre, -⟩ := hr
  obtain ⟨op, before, call, after⟩ := r
  rintro rfl write hwrite job hjob hs hbeat
  cases call with
  | jobsUpdate seen new =>
    obtain rfl := Option.some.inj hwrite
    obtain ⟨st, now, st', hw, hheld, -⟩ := hpre
    have hheld : Held D .completionTick st seen before := hheld
    obtain ⟨hstored, hk⟩ := hheld.exact rfl
    have hjob : before.jobs.get? new.id = some job := hjob
    rw [hw.id_eq, hstored] at hjob
    obtain rfl := Option.some.inj hjob
    cases hw with
    | enterTraining _ _ => exact absurd rfl hbeat
    | recordProgress htraining => exact absurd (htraining.symm.trans hs) (by decide)
    | markAlive _ => exact hk.2.2 rfl rfl hs
    | complete htraining => exact absurd (htraining.symm.trans hs) (by decide)
    | fail htraining => exact absurd (htraining.symm.trans hs) (by decide)
  | _ => cases hwrite

/-- Since `since`, the job has been initializing without a heartbeat, or it has ended. -/
def Silent (jobId : String) (since : ℤ) (w : World) : Prop :=
  ∃ job, w.jobs.get? jobId = some job ∧ (job.status = .initializing ∨ job.status.Terminal) ∧
    ∀ heartbeat, job.heartbeatAt = some heartbeat → heartbeat ≤ since

/-- A stranded job makes no sign of life. -/
theorem silent_write {jobId : String} {st st' : Stage} {seen new job : Job} {now : ℤ}
    (hstranded : Stranded D jobId w) (hw : JobWrite op st seen now st' new)
    (hheld : Held D op st seen w) (hid : new.id = jobId) (hjob : w.jobs.get? jobId = some job)
    (hs : job.status = .initializing ∨ job.status.Terminal) :
    (new.status = .initializing ∨ new.status.Terminal) ∧ new.heartbeatAt = job.heartbeatAt := by
  have hseen : seen.id = jobId := hw.id_eq.symm.trans hid
  obtain ⟨hbeat, hqueued⟩ : Kept seen job := hheld.copy.stored rfl (hseen ▸ hjob)
  have hexact : op.interrupted = false → seen = job ∧ Knows D w job st := by
    intro hop
    obtain ⟨hstored, hk⟩ := hheld.exact hop
    rw [hseen, hjob] at hstored
    obtain rfl := Option.some.inj hstored
    exact ⟨rfl, hk⟩
  have hnot : job.status ≠ .training ∧ job.status ≠ .queued := by
    revert hs
    cases job.status <;> decide
  cases hw with
  | requestCancel _ =>
    obtain ⟨rfl, -⟩ := hexact rfl
    exact ⟨hs, rfl⟩
  | start hq => exact absurd (hqueued.mpr hq) hnot.2
  | recordContainer hinit => exact ⟨.inl hinit, hbeat.symm⟩
  | enterTraining hinit hreason =>
    obtain ⟨rfl, hread, hpresent, -⟩ := hexact rfl
    obtain ⟨hunread, habsent⟩ := hstranded seen hjob hinit
    rcases hreason with hp | hx
    · have := hread hp
      rw [hseen] at this
      exact absurd this hunread
    · exact absurd (hpresent hx) habsent
  | recordProgress htraining =>
    obtain ⟨rfl, -⟩ := hexact rfl
    exact absurd htraining hnot.1
  | markAlive hinit =>
    obtain ⟨rfl, -, -, halive⟩ := hexact rfl
    obtain ⟨containerId, hcontainer, hrunning⟩ := halive rfl rfl hinit
    obtain ⟨-, habsent⟩ := hstranded seen hjob hinit
    exact absurd ⟨containerId, hcontainer, by rw [hrunning]; decide⟩ habsent
  | complete htraining =>
    obtain ⟨rfl, -⟩ := hexact rfl
    exact absurd htraining hnot.1
  | fail htraining =>
    obtain ⟨rfl, -⟩ := hexact rfl
    exact absurd htraining hnot.1
  | _ => exact ⟨.inr (by simp [JobStatus.Terminal, terminalStatuses]), hbeat.symm⟩

theorem silent_of_known {jobId : String} {since : ℤ} {r : SysRecord}
    (hr : r.Known D.system ((protocol D).outline D)) (hstranded : Stranded D jobId r.before)
    (hsilent : Silent jobId since r.before) : Silent jobId since r.after := by
  obtain ⟨hi, hpre, o, a, he⟩ := hr
  obtain ⟨op, before, call, after⟩ := r
  have he : World.exec D.steady o before call = some (a, after) := he
  obtain ⟨job, hjob, hs, hbeat⟩ := hsilent
  have hjob : before.jobs.get? jobId = some job := hjob
  -- any other document
  have hother : ∀ new : Job, jobId ≠ new.id → Silent jobId since (before.writeJob new) := by
    intro new hne
    refine ⟨job, ?_, hs, hbeat⟩
    exact (Table.get?_put_of_ne hne).trans hjob
  by_cases hjobs : call.writesJobs = false
  · have hsame : after.jobs = before.jobs := (World.exec_frame he).jobs hjobs
    exact ⟨job, by rw [hsame, hjob], hs, hbeat⟩
  · cases call with
    | jobsCreate new =>
      obtain ⟨rfl, hfresh⟩ := World.exec_jobsCreate he
      apply hother
      rintro rfl
      rw [hfresh] at hjob
      cases hjob
    | jobsUpdate seen new =>
      obtain rfl := World.exec_jobsUpdate he
      by_cases hid : new.id = jobId
      · obtain ⟨st, now, st', hw, hheld, -⟩ := hpre
        obtain ⟨hs', hbeat'⟩ := silent_write hstranded hw hheld hid hjob hs
        refine ⟨new, ?_, hs', ?_⟩
        · rw [← hid]
          exact Table.get?_put_self before.jobs new
        · rw [hbeat']
          exact hbeat
      · exact hother new (Ne.symm hid)
    | _ => exact absurd rfl hjobs

end

/-- A sweep on its own: nothing happens in between. -/
def sweeping : Outline Op Call World where
  inv _ := True
  rely _ w w' := w' = w
  pre _ _ _ := True
  cond _ _ _ := True

theorem sweeping_preorders : sweeping.Preorders :=
  ⟨fun _ _ => rfl, fun _ _ _ _ h₁ h₂ => h₂.trans h₁⟩

theorem sweeping_steps {D : Deployment} : sweeping.Steps D.system Label.Uninterrupted := by
  have hnone : ∀ op, ¬ InFlight D.system Label.Uninterrupted op := by
    rintro op (⟨-, h⟩ | ⟨-, h⟩) <;> exact h
  constructor
  · exact sweeping_preorders
  · exact fun _ _ _ _ _ _ _ _ _ _ _ => ⟨trivial, fun op' hover => absurd hover.1 (hnone op')⟩
  · exact fun _ _ _ _ _ _ => ⟨trivial, fun op' hfly => absurd hfly (hnone op')⟩

/-- The job has ended, or what is left of the sweep will end it. -/
def Due (jobId : String) (now : ℤ) (jobs : List Job) (w : World) : Prop :=
  Ended jobId w ∨ ∃ job ∈ jobs, job.id = jobId ∧ isTimedOut job.status job.heartbeatAt now = true

theorem Ended.write {jobId : String} {w : World} {new : Job} (hnew : new.status.Terminal)
    (h : Ended jobId w ∨ new.id = jobId) : Ended jobId (w.writeJob new) := by
  by_cases hid : new.id = jobId
  · refine ⟨new, ?_, hnew⟩
    rw [← hid]
    exact Table.get?_put_self w.jobs new
  · obtain ⟨job, hjob, hended⟩ := h.resolve_right hid
    exact ⟨job, (Table.get?_put_of_ne (Ne.symm hid)).trans hjob, hended⟩

/-- The write for the first job of the list leaves the rest to do. -/
theorem Due.write {jobId : String} {now : ℤ} {job : Job} {jobs : List Job} {w : World} {new : Job}
    (h : Due jobId now (job :: jobs) w) (hid : new.id = job.id) (hnew : new.status.Terminal) :
    Due jobId now jobs (w.writeJob new) := by
  rcases h with hended | ⟨other, hmem, hother, htimeout⟩
  · exact .inl (.write hnew (.inl hended))
  · rcases List.mem_cons.mp hmem with rfl | hmem
    · exact .inl (.write hnew (.inr (hid.trans hother)))
    · exact .inr ⟨other, hmem, hother, htimeout⟩

theorem safe_failTimedOut {D : Deployment} {jobId : String} {now : ℤ} {late : Prop}
    (jobs : List Job) {w : World} (hclock : w.clock = now) (hdue : late → Due jobId now jobs w) :
    Safe (World.exec D.steady) sweeping .timeoutSweep
      (fun _ w' => w'.clock = now ∧ (late → Ended jobId w'))
      (TimeoutService.failTimedOut now jobs) w := by
  induction jobs generalizing w with
  | nil =>
    apply Safe.pure_of
    intro w' hw' _
    obtain rfl : w' = w := hw'
    refine ⟨hclock, fun hlate => ?_⟩
    rcases hdue hlate with hended | ⟨job, hmem, -⟩
    · exact hended
    · exact absurd hmem List.not_mem_nil
  | cons job jobs ih =>
    unfold TimeoutService.failTimedOut
    by_cases htimeout : isTimedOut job.status job.heartbeatAt now = true
    · have hcan : canTransition job.status .failed = true := by
        rcases status_of_isTimedOut htimeout with hs | hs <;> rw [hs] <;> rfl
      rw [if_pos htimeout, transition_of_can hcan]
      apply Safe.perform
      intro w₁ hw₁ _
      obtain rfl : w₁ = w := hw₁
      refine ⟨trivial, fun _ o r w₂ he => ?_⟩
      obtain rfl := World.exec_jobsUpdate he
      apply Safe.bind sweeping_preorders
      refine (ih ?_ fun hlate => ?_).mono ?_
      · exact hclock
      · exact (hdue hlate).write rfl (by simp [JobStatus.Terminal, terminalStatuses])
      · intro r w₃ _ hdone
        cases r with
        | ok failedJobs =>
          show ∀ w', w' = w₃ → True → w'.clock = now ∧ (late → Ended jobId w')
          rintro w' rfl -
          exact hdone
        | error e => exact hdone
    · rw [if_neg htimeout]
      refine ih hclock fun hlate => ?_
      rcases hdue hlate with hended | ⟨other, hmem, hid, hother⟩
      · exact .inl hended
      · rcases List.mem_cons.mp hmem with rfl | hmem
        · exact absurd hother htimeout
        · exact .inr ⟨other, hmem, hid, hother⟩

theorem safe_sweep {D : Deployment} {jobId : String} {since : ℤ} {w : World}
    (hbeats : ∀ job ∈ w.jobs, Beats job w.clock) (hsilent : Silent jobId since w) :
    Safe (World.exec D.steady) sweeping .timeoutSweep
      (fun _ w' => since + initializingTimeout < w'.clock → Ended jobId w')
      (Op.timeoutSweep.code D) w := by
  apply Safe.bind sweeping_preorders
  apply Safe.perform
  intro w₁ hw₁ _
  obtain rfl : w₁ = w := hw₁
  refine ⟨trivial, fun _ o now w₂ he => ?_⟩
  obtain ⟨rfl, -⟩ := World.exec_now he
  apply Safe.perform
  intro w₂ hw₂ _
  obtain rfl : w₂ = { w₁ with clock := now } := hw₂
  refine ⟨trivial, fun _ o candidates w₃ he => ?_⟩
  obtain ⟨rfl, rfl⟩ := Prod.mk.inj (Option.some.inj he)
  obtain ⟨job, hjob, hs, hsince⟩ := hsilent
  have hmem : job ∈ w₁.jobs := Table.mem_of_get? hjob
  have hid : job.id = jobId := Table.key_of_get? hjob
  have hdue : since + initializingTimeout < now → Due jobId now
      (w₁.jobs.listByStatuses TimeoutService.monitoredStatuses) { w₁ with clock := now } := by
    intro hlate
    rcases hs with hs | hs
    · obtain ⟨heartbeat, hb⟩ := Option.ne_none_iff_exists'.mp ((hbeats job hmem).some hs)
      have hle := hsince heartbeat hb
      refine .inr ⟨job, JobTable.mem_listByStatuses.mpr ⟨hmem, ?_⟩, hid, ?_⟩
      · rw [hs]
        decide
      · rw [hs, hb, isTimedOut_initializing]
        omega
    · exact .inl ⟨job, hjob, hs⟩
  refine (safe_failTimedOut _ rfl hdue).mono ?_
  intro r w₄ _ hdone
  obtain ⟨hclock, hended⟩ := hdone
  cases r with
  | ok failedJobs =>
    show ∀ w', w' = w₄ → True → since + initializingTimeout < w'.clock → Ended jobId w'
    rintro w' rfl -
    rw [hclock]
    exact hended
  | error e =>
    show since + initializingTimeout < w₄.clock → Ended jobId w₄
    rw [hclock]
    exact hended

end StrandedJobs

open StrandedJobs

/-- In every run in which completion ticks find the containers of initializing jobs without
progress: the heartbeat of such a job advances only for a running container, and a job that is
stranded from some instant on is ended by a sweep that comes five minutes later. -/
theorem stranded_jobs_end {D : Deployment} (hsteady : D.steady = true) {w : World}
    {ls ls' : List SysLabel} {rs rs' : List SysRecord} {c c' : SysConf}
    (hw : ∀ job ∈ w.jobs, Beats job w.clock) (hl : ∀ l ∈ ls ++ ls', MonitorAtomic l)
    (hr : D.system.run (.initial w) ls = some (rs, c)) (hr' : D.system.run c ls' = some (rs', c'))
    (hcond : ∀ r ∈ rs ++ rs', Attended D r.op r.before r.call) :
    (∀ r ∈ rs ++ rs', BeatsAlive r) ∧
      ∀ jobId, Initializing jobId c.state → (∀ r ∈ rs', Stranded D jobId r.before) →
        ∀ xs rs'' c'', D.system.step c' (.whole .timeoutSweep xs) = some (rs'', c'') →
          c.state.clock + initializingTimeout < c''.state.clock → Ended jobId c''.state := by
  have hsound := (StrandedJobs.sound hsteady).outline fun _ _ _ => trivial
  rw [List.forall_mem_append] at hl hcond
  obtain ⟨hknown, hgood⟩ := hsound.run (.initial hw) hl.1 hr fun r hmem _ => hcond.1 r hmem
  obtain ⟨hknown', hgood'⟩ := hsound.run hgood hl.2 hr' fun r hmem _ => hcond.2 r hmem
  constructor
  · rw [List.forall_mem_append]
    exact ⟨fun r hmem => beatsAlive_of_known (hknown r hmem),
      fun r hmem => beatsAlive_of_known (hknown' r hmem)⟩
  · intro jobId hinit hstranded xs rs'' c'' hstep hlate
    have hsilent : Silent jobId c.state.clock c.state := by
      obtain ⟨job, hjob, hs⟩ := hinit
      exact ⟨job, hjob, .inl hs, (hgood.inv job (Table.mem_of_get? hjob)).le⟩
    have hsilent' : Silent jobId c.state.clock c'.state := by
      refine (Machine.run_states hr' (fun r hmem => ?_) (fun v w w' he hw => ?_) hsilent).2
      · exact silent_of_known (hknown' r hmem) (hstranded r hmem)
      · obtain ⟨job, hjob, hs, hbeat⟩ := hw
        exact ⟨job, by rw [(World.occur_frame he).1, hjob], hs, hbeat⟩
    obtain ⟨-, p, s, hd, hfinished, rfl⟩ := Machine.step_whole hstep
    have hsafe := safe_sweep (D := D) hgood'.inv hsilent'
    have hsweep := sweeping_steps.drive (.inr (.inr ⟨xs, .inl trivial⟩)) trivial hsafe hd
      fun _ _ _ => trivial
    have hout := Safe.outcome_of_finished sweeping_preorders trivial hsweep.2.2.1
    cases p with
    | call call k => cases hfinished
    | _ => exact hout hlate

namespace StrandedJobs

/-- A worker that crashes when its job has left the queue and its user is charged, and is
restarted. -/
def abandonedStart : List SysLabel :=
  .whole (.createJob "user" .act .hfHub "org/dataset" 100) (List.replicate 6 { text := "j" }) ::
    .start .pollerTick :: List.replicate 8 (.work {}) ++
    [.crash, .start .reconcile] ++ List.replicate 2 (.work {})

/-- A completion tick after four minutes, and a sweep after six. -/
def lateTick : List SysLabel := [.whole .completionTick (List.replicate 4 { time := seconds 240 })]

def lateSweep (writes : ℕ) : List Choice := List.replicate (2 + writes) { time := seconds 360 }

def monitors : Op → Bool
  | .completionTick => true
  | _ => false

/-- The job waits for a container that no document names. -/
def deserted (w : World) : Bool :=
  (w.jobs.get? "j").any fun job =>
    job.status = .initializing && job.container? = none && (w.progressFile "j").isNone

theorem deserted_spec {w : World} (h : deserted w = true) :
    Initializing "j" w ∧ Stranded .oneClock "j" w := by
  obtain ⟨job, hjob, hrest⟩ := (Option.any_eq_true _ _).mp h
  obtain ⟨hrest, hfile⟩ := Bool.and_eq_true_iff.mp hrest
  obtain ⟨hs, hcontainer⟩ := Bool.and_eq_true_iff.mp hrest
  refine ⟨⟨job, hjob, of_decide_eq_true hs⟩, fun job' hjob' _ => ⟨?_, ?_⟩⟩
  · rintro ⟨progress, hread⟩
    rw [Option.isNone_iff_eq_none.mp hfile] at hread
    cases hread
  · rintro ⟨containerId, hid, -⟩
    obtain rfl := Option.some.inj (hjob.symm.trans hjob')
    rw [of_decide_eq_true hcontainer] at hid
    cases hid

/-- A completion tick advances the heartbeat of a job without a container. -/
def faked (r : SysRecord) : Bool :=
  monitors r.op && r.call.rewrite?.any fun write =>
    (r.before.jobs.get? write.new.id).any fun job =>
      job.status = .initializing && write.new.heartbeatAt ≠ job.heartbeatAt &&
        job.container? = none

theorem not_beatsAlive_of_faked {r : SysRecord} (h : faked r = true) : ¬ BeatsAlive r := by
  intro halive
  obtain ⟨hop, hrest⟩ := Bool.and_eq_true_iff.mp h
  obtain ⟨write, hwrite, hrest⟩ := (Option.any_eq_true _ _).mp hrest
  obtain ⟨job, hjob, hrest⟩ := (Option.any_eq_true _ _).mp hrest
  obtain ⟨hrest, hcontainer⟩ := Bool.and_eq_true_iff.mp hrest
  obtain ⟨hs, hbeat⟩ := Bool.and_eq_true_iff.mp hrest
  have hmonitor : r.op = .completionTick := by
    revert hop
    cases r.op <;> simp [monitors]
  obtain ⟨containerId, hid, -⟩ := halive hmonitor write hwrite job hjob (of_decide_eq_true hs)
    (of_decide_eq_true hbeat)
  rw [of_decide_eq_true hcontainer] at hid
  cases hid

end StrandedJobs

/-- A single completion tick in between takes the missing container for a running one, and the
sweep lets the job go on. -/
theorem stranded_jobs_end_fails : ¬ ∀ (ls ls' : List SysLabel) (xs : List Choice)
    (rs rs' rs'' : List SysRecord) (c c' c'' : SysConf), (∀ l ∈ ls ++ ls', MonitorAtomic l) →
    Deployment.oneClock.system.run (.initial .sample) ls = some (rs, c) →
    Deployment.oneClock.system.run c ls' = some (rs', c') →
    Deployment.oneClock.system.step c' (.whole .timeoutSweep xs) = some (rs'', c'') →
    Initializing "j" c.state → (∀ r ∈ rs', Stranded .oneClock "j" r.before) →
    c.state.clock + initializingTimeout < c''.state.clock →
    (∀ r ∈ rs ++ rs', BeatsAlive r) ∨ Ended "j" c''.state := by
  intro h
  have hrun : (Deployment.oneClock.system.run (.initial .sample) abandonedStart).any (fun out =>
      (Deployment.oneClock.system.run out.2 lateTick).any fun out' =>
        (Deployment.oneClock.system.step out'.2 (.whole .timeoutSweep (lateSweep 0))).any fun out'' =>
          deserted out.2.state && out'.1.all (fun r => deserted r.before) && out'.1.any faked &&
            deserted out''.2.state &&
            decide (out.2.state.clock + initializingTimeout < out''.2.state.clock)) = true := by
    rfl
  obtain ⟨⟨rs, c⟩, hr, hrest⟩ := (Option.any_eq_true _ _).mp hrun
  obtain ⟨⟨rs', c'⟩, hr', hrest⟩ := (Option.any_eq_true _ _).mp hrest
  obtain ⟨⟨rs'', c''⟩, hstep, hrest⟩ := (Option.any_eq_true _ _).mp hrest
  obtain ⟨hrest, hlate⟩ := Bool.and_eq_true_iff.mp hrest
  obtain ⟨hrest, hend⟩ := Bool.and_eq_true_iff.mp hrest
  obtain ⟨hrest, hfaked⟩ := Bool.and_eq_true_iff.mp hrest
  obtain ⟨hstart, hbetween⟩ := Bool.and_eq_true_iff.mp hrest
  have hl : ∀ l ∈ abandonedStart ++ lateTick, MonitorAtomic l := by
    simp [abandonedStart, lateTick, MonitorAtomic, Op.interrupted]
  have hstranded : ∀ r ∈ rs', Stranded .oneClock "j" r.before := fun r hmem =>
    (deserted_spec (List.all_eq_true.mp hbetween r hmem)).2
  rcases h abandonedStart lateTick (lateSweep 0) rs rs' rs'' c c' c'' hl hr hr' hstep
    (deserted_spec hstart).1 hstranded (of_decide_eq_true hlate) with halive | hended
  · obtain ⟨r, hmem, hr⟩ := List.any_eq_true.mp hfaked
    exact not_beatsAlive_of_faked hr (halive r (List.mem_append_right _ hmem))
  · obtain ⟨job, hjob, hs⟩ := (deserted_spec hend).1
    obtain ⟨job', hjob', hterminal⟩ := hended
    obtain rfl := Option.some.inj (hjob.symm.trans hjob')
    rw [hs] at hterminal
    revert hterminal
    decide

/-- Without the completion tick the sweep ends the job. -/
theorem stranded_jobs_end_swept : ∃ rs c rs'' c'',
    Deployment.oneClock.system.run (.initial .sample) abandonedStart = some (rs, c) ∧
      Deployment.oneClock.system.step c (.whole .timeoutSweep (lateSweep 1)) =
        some (rs'', c'') ∧ Initializing "j" c.state ∧ Ended "j" c''.state := by
  have hrun : (Deployment.oneClock.system.run (.initial .sample) abandonedStart).any (fun out =>
      (Deployment.oneClock.system.step out.2 (.whole .timeoutSweep (lateSweep 1))).any fun out'' =>
         deserted out.2.state && out.1.all (fun r => !monitors r.op) &&
          decide (out.2.state.clock + initializingTimeout < out''.2.state.clock)) = true := by
    rfl
  obtain ⟨⟨rs, c⟩, hr, hrest⟩ := (Option.any_eq_true _ _).mp hrun
  obtain ⟨⟨rs'', c''⟩, hstep, hrest⟩ := (Option.any_eq_true _ _).mp hrest
  obtain ⟨hrest, hlate⟩ := Bool.and_eq_true_iff.mp hrest
  obtain ⟨hstart, hnone⟩ := Bool.and_eq_true_iff.mp hrest
  have hinit := (deserted_spec hstart).1
  have hl : ∀ l ∈ abandonedStart ++ [], MonitorAtomic l := by
    simp [abandonedStart, MonitorAtomic, Op.interrupted]
  have hcond : ∀ r ∈ rs ++ [], Attended .oneClock r.op r.before r.call := by
    intro r hmem
    rw [List.append_nil] at hmem
    have hnot := List.all_eq_true.mp hnone r hmem
    cases hcall : r.call with
    | readProgressFile jobId =>
      intro hop
      rw [hop] at hnot
      cases hnot
    | _ => trivial
  have hjobs : ∀ job ∈ World.sample.jobs, Beats job World.sample.clock :=
    fun job hjob => absurd hjob (Table.not_mem_empty job)
  have hends := (stranded_jobs_end rfl hjobs hl hr rfl hcond).2
  exact ⟨rs, c, rs'', c'', hr, hstep, hinit,
    hends "j" hinit (by simp) _ rs'' c'' hstep (of_decide_eq_true hlate)⟩

end TrainVla
