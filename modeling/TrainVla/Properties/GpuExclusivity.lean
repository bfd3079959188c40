import TrainVla.System.AtomicProtocol

/-! At most one container occupies the GPU, and its job is under way, as long as no sweep fails
a job whose container is running. -/
namespace TrainVla

open Interaction Store

namespace GpuExclusivity

def RunsFor (containers : Containers) (jobId : String) (container : Container) : Prop :=
  container ∈ containers ∧ container.state = .running ∧ container.spec.jobId? = some jobId

def UnderWay (job : Job) : Prop := job.status = .initializing ∨ job.status = .training

structure Exclusive (w : World) : Prop where
  single : ∀ jobId jobId' container container', RunsFor w.containers jobId container →
    RunsFor w.containers jobId' container' → container = container'
  owned : ∀ jobId container, RunsFor w.containers jobId container →
    ∃ job, w.jobs.get? jobId = some job ∧ UnderWay job

/-- The sweep fails no job whose container is running. -/
def Spares (op : Op) (w : World) (c : Call) : Prop :=
  op = .timeoutSweep → ∀ write ∈ c.rewrite?, ∀ container, ¬ RunsFor w.containers write.new.id container

def sweeps : Op → Bool
  | .timeoutSweep => true
  | _ => false

/-- A running container is the one in the document of its job. -/
def Recorded (w : World) : Prop :=
  ∀ jobId container job, RunsFor w.containers jobId container → w.jobs.get? jobId = some job →
    job.container? = some container.id

def Vacant (w : World) : Prop := ∀ jobId container, ¬ RunsFor w.containers jobId container

def Stopped (job : Job) (w : World) : Prop :=
  ∀ container ∈ w.containers, job.container? = some container.id → container.state ≠ .running

/-- What the worker knows of the GPU in each stage of a job. -/
def Knows (job : Job) (w : World) : Stage → Prop
  | .dead => Stopped job w
  | .polled _ (some _) => Stopped job w
  | .next => Vacant w
  | .owned _ => Vacant w
  | .started _ => Vacant w ∧ job.status = .initializing
  | .charged => Vacant w ∧ job.status = .initializing
  | .refused => Vacant w
  | .launched containerId => containerId ≠ "" ∧ ∀ jobId container,
    RunsFor w.containers jobId container → container.id = containerId ∧ jobId = job.id
  | _ => True

def protocol : AtomicProtocol where
  inv := Exclusive
  calm := Recorded
  cond := Spares
  knows st job w := Knows job w st
  dated _ _ := True

theorem keeps_of_eq {w w' : World} (hjobs : w'.jobs = w.jobs)
    (hcontainers : w'.containers = w.containers) : protocol.Keeps w w' := by
  refine ⟨fun hi => ⟨?_, ?_⟩, fun hcalm => ?_, fun st job _ hk => ?_⟩
  · rw [hcontainers]
    exact hi.single
  · rw [hjobs, hcontainers]
    exact hi.owned
  · show Recorded w'
    unfold Recorded
    rw [hjobs, hcontainers]
    exact hcalm
  · have hvacant : Vacant w → Vacant w' := by
      unfold Vacant
      rw [hcontainers]
      exact id
    have hstopped : Stopped job w → Stopped job w' := by
      unfold Stopped
      rw [hcontainers]
      exact id
    show Knows job w' st
    cases st with
    | dead => exact hstopped hk
    | next => exact hvacant hk
    | owned user => exact hvacant hk
    | started user => exact ⟨hvacant hk.1, hk.2⟩
    | charged => exact ⟨hvacant hk.1, hk.2⟩
    | refused => exact hvacant hk
    | launched containerId =>
      unfold Knows
      rw [hcontainers]
      exact hk
    | polled progress exitCode =>
      cases exitCode with
      | none => trivial
      | some code => exact hstopped hk
    | _ => trivial

/-- Nothing starts to run. -/
def Quieter (before after : Containers) : Prop :=
  ∀ jobId container, RunsFor after jobId container → RunsFor before jobId container

theorem Exclusive.quieter {w : World} (h : Exclusive w) {containers : Containers}
    (hq : Quieter w.containers containers) : Exclusive { w with containers := containers } where
  single _ _ _ _ hruns hruns' := h.single _ _ _ _ (hq _ _ hruns) (hq _ _ hruns')
  owned _ _ hruns := h.owned _ _ (hq _ _ hruns)

theorem Recorded.quieter {w : World} (h : Recorded w) {containers : Containers}
    (hq : Quieter w.containers containers) : Recorded { w with containers := containers } :=
  fun jobId container job hruns hjob => h jobId container job (hq _ _ hruns) hjob

/-- Only containers that were running, and not the one whose state is set, still run. -/
theorem mem_setState {containers : Containers} {containerId : String} {state : ContainerState}
    (hstate : state ≠ .running) {c : Container} (hc : c ∈ containers.setState containerId state)
    (hrunning : c.state = .running) : c ∈ containers ∧ c.id ≠ containerId := by
  unfold Containers.setState at hc
  cases hget : containers.get? containerId with
  | none =>
    rw [hget] at hc
    exact ⟨hc, Table.get?_eq_none.mp hget c hc⟩
  | some old =>
    rw [hget] at hc
    rcases Table.mem_put.mp hc with rfl | ⟨hmem, hne⟩
    · exact absurd hrunning hstate
    · have hid : old.id = containerId := Table.key_of_get? hget
      exact ⟨hmem, fun heq => hne (heq.trans hid.symm)⟩

theorem quieter_setState (containers : Containers) (containerId : String) {state : ContainerState}
    (hstate : state ≠ .running) : Quieter containers (containers.setState containerId state) :=
  fun _ _ ⟨hmem, hrunning, hlabel⟩ => ⟨(mem_setState hstate hmem hrunning).1, hrunning, hlabel⟩

/-- A kill that succeeds leaves its container stopped. -/
theorem of_kill {containers containers' : Containers} {containerId : String}
    (h : containers.kill containerId = .ok containers') : Quieter containers containers' ∧
      ∀ c ∈ containers', c.id = containerId → c.state ≠ .running := by
  unfold Containers.kill at h
  split at h
  · rename_i hremoved
    obtain rfl := Except.ok.inj h
    refine ⟨fun _ _ => id, fun c hc hid hrunning => ?_⟩
    unfold Containers.stateOf at hremoved
    have hget : containers.get? containerId = some c := by
      rw [← hid]
      exact Table.get?_of_mem hc
    rw [hget] at hremoved
    exact absurd (hrunning.symm.trans hremoved) (by decide)
  · obtain rfl := Except.ok.inj h
    have hexited : ContainerState.exited 137 ≠ .running := by decide
    refine ⟨quieter_setState containers containerId hexited, fun c hc hid hrunning => ?_⟩
    exact (mem_setState hexited hc hrunning).2 hid
  · cases h

theorem exclusive_writeJob {w : World} {new : Job} (h : Exclusive w)
    (hnew : ∀ container, RunsFor w.containers new.id container → UnderWay new) :
    Exclusive (w.writeJob new) where
  single := h.single
  owned jobId container hruns := by
    show ∃ job, (w.jobs.put new).get? jobId = some job ∧ UnderWay job
    rw [Table.get?_put]
    by_cases hid : jobId = new.id
    · rw [hid] at hruns
      exact ⟨new, if_pos hid, hnew container hruns⟩
    · rw [if_neg hid]
      exact h.owned jobId container hruns

theorem recorded_writeJob {w : World} {new : Job} (h : Recorded w)
    (hnew : ∀ container, RunsFor w.containers new.id container →
      new.container? = some container.id) : Recorded (w.writeJob new) := by
  intro jobId container job hruns hjob
  have hjob : (w.jobs.put new).get? jobId = some job := hjob
  rw [Table.get?_put] at hjob
  by_cases hid : jobId = new.id
  · rw [if_pos hid] at hjob
    obtain rfl := Option.some.inj hjob
    rw [hid] at hruns
    exact hnew container hruns
  · rw [if_neg hid] at hjob
    exact h jobId container job hruns hjob

/-- The container of a job is entered once, after it was started. -/
theorem container?_of_write {op : Op} {st st' : Stage} {seen new : Job} {now : ℤ}
    (h : JobWrite op st seen now st' new) (hst : st.Settled) :
    new.container? = seen.container? := by
  cases h with
  | recordContainer _ => exact hst.elim
  | _ => rfl

/-- A job whose recorded container is stopped has none that runs. -/
theorem not_runsFor_of_stopped {w : World} {job : Job} (hcalm : Recorded w)
    (hjob : w.jobs.get? job.id = some job) (hstopped : Stopped job w) {container : Container} :
    ¬ RunsFor w.containers job.id container := by
  intro hruns
  have hcontainer := hcalm job.id container job hruns hjob
  exact hstopped container hruns.1 hcontainer hruns.2.1

/-- A document that is written is under way, or nothing runs for it. -/
theorem underWay_of_write {op : Op} {st st' : Stage} {seen new : Job} {now : ℤ} {w : World}
    (hi : Exclusive w) (hw : JobWrite op st seen now st' new)
    (hseen : w.jobs.get? seen.id = some seen) (hk : Knows seen w st)
    (hcalm : st.Settled → Recorded w) (hc : Spares op w (.jobsUpdate seen new))
    {container : Container} (hruns : RunsFor w.containers seen.id container) : UnderWay new := by
  have hunderWay : UnderWay seen := by
    obtain ⟨job, hjob, hunderWay⟩ := hi.owned seen.id container hruns
    rw [hseen] at hjob
    obtain rfl := Option.some.inj hjob
    exact hunderWay
  cases hw with
  | requestCancel _ => exact hunderWay
  | timeOut _ => exact absurd hruns (hc rfl _ rfl container)
  | cancelUnstarted _ _ hcontainer =>
    rcases hcontainer with hq | hnone
    · rcases hunderWay with hs | hs <;> exact absurd (hq.symm.trans hs) (by decide)
    · have hrecorded := hcalm trivial seen.id container seen hruns hseen
      rw [hnone] at hrecorded
      cases hrecorded
  | cancelKilled _ _ => exact absurd hruns (not_runsFor_of_stopped (hcalm trivial) hseen hk)
  | start _ => exact .inl rfl
  | failUnfetched _ => exact absurd hruns (hk.1 _ _)
  | failRefused _ => exact absurd hruns (hk _ _)
  | recordContainer hs => exact .inl hs
  | enterTraining _ _ => exact .inr rfl
  | recordProgress hs => exact .inr hs
  | markAlive hs => exact .inl hs
  | complete _ => exact absurd hruns (not_runsFor_of_stopped (hcalm trivial) hseen hk)
  | fail _ => exact absurd hruns (not_runsFor_of_stopped (hcalm trivial) hseen hk)

theorem keeps_write {op : Op} {st st' : Stage} {seen new : Job} {now : ℤ} {w : World}
    (hi : Exclusive w) (hw : JobWrite op st seen now st' new)
    (hseen : w.jobs.get? new.id = some seen) (hk : Knows seen w st)
    (hcalm : st.Settled → Recorded w) (hc : Spares op w (.jobsUpdate seen new)) :
    Exclusive (w.writeJob new) ∧ Knows new (w.writeJob new) st' ∧
      (st'.Settled → Recorded (w.writeJob new)) := by
  have hid : new.id = seen.id := hw.id_eq
  have hseen' : w.jobs.get? seen.id = some seen := hid ▸ hseen
  refine ⟨exclusive_writeJob hi fun container hruns => ?_, ?_, fun hst' => ?_⟩
  · rw [hid] at hruns
    exact underWay_of_write hi hw hseen' hk hcalm hc hruns
  · cases hw with
    | start _ => exact ⟨hk, rfl⟩
    | @enterTraining _ _ exitCode _ _ _ => cases exitCode <;> exact hk
    | @recordProgress _ _ exitCode _ _ => cases exitCode <;> exact hk
    | _ => trivial
  · by_cases hst : st.Settled
    · refine recorded_writeJob (hcalm hst) fun container hruns => ?_
      rw [hid] at hruns
      rw [container?_of_write hw hst]
      exact hcalm hst seen.id container seen hruns hseen'
    · cases hw with
      | recordContainer hs =>
        obtain ⟨hne, hlaunched⟩ := hk
        refine fun jobId container job hruns hjob => ?_
        obtain ⟨rfl, rfl⟩ := hlaunched jobId container hruns
        have hjob : (w.jobs.put _).get? seen.id = some job := hjob
        rw [Table.get?_put, if_pos rfl] at hjob
        obtain rfl := Option.some.inj hjob
        exact Job.container?_eq_some.mpr ⟨rfl, hne⟩
      | _ => exact absurd trivial hst

/-- Nothing runs for a job that is only created now. -/
theorem not_runsFor_of_fresh {w : World} (hi : Exclusive w) {job : Job}
    (hfresh : w.jobs.get? job.id = none) {container : Container} :
    ¬ RunsFor w.containers job.id container := by
  intro hruns
  obtain ⟨stored, hstored, -⟩ := hi.owned job.id container hruns
  rw [hfresh] at hstored
  cases hstored

theorem runsFor_runContainer {w : World} {spec : ContainerSpec} {containerId jobId : String}
    {container : Container} (hvacant : Vacant w)
    (h : RunsFor (w.runContainer spec containerId).containers jobId container) :
    container = { id := containerId, spec := spec, state := .running } ∧ spec.jobId? = some jobId := by
  obtain ⟨hmem, hrunning, hlabel⟩ := h
  rcases Table.mem_put.mp hmem with rfl | ⟨hold, -⟩
  · exact ⟨rfl, hlabel⟩
  · exact absurd ⟨hold, hrunning, hlabel⟩ (hvacant jobId container)

theorem sound {D : Deployment} : protocol.Sound D where
  alike _ _ h := keeps_of_eq h.jobs h.containers
  tick _ _ _ := keeps_of_eq rfl rfl
  read _ _ := trivial
  next _ _ w hi hfree _ := by
    intro jobId container hruns
    obtain ⟨job, hjob, hunderWay⟩ := hi.owned jobId container hruns
    have hnot := hfree job (Table.mem_of_get? hjob)
    rcases hunderWay with hs | hs <;> rw [hs] at hnot <;> exact hnot (by decide)
  owned _ _ _ _ hvacant _ := hvacant
  dated _ _ _ _ := trivial
  sawProgress _ _ _ _ _ _ _ _ _ := ⟨trivial, fun _ => trivial⟩
  polled job progress containerId w _ _ hcontainer := by
    cases hexit : w.containers.getExitCode containerId with
    | none => trivial
    | some code =>
      intro container hmem hid hrunning
      obtain rfl := Option.some.inj (hcontainer.symm.trans hid)
      have hget : w.containers.get? container.id = some container := Table.get?_of_mem hmem
      unfold Containers.getExitCode Containers.stateOf at hexit
      rw [hget] at hexit
      dsimp only at hexit
      rw [hrunning] at hexit
      cases hexit
  wrote _ _ _ _ _ _ _ hi hw hseen hk _ hcalm hc := keeps_write hi hw hseen hk hcalm hc
  created _ _ _ _ job w hi _ _ hfresh _ _ _ _ hcalm _ := by
    have hnot := fun container => @not_runsFor_of_fresh w hi job hfresh container
    exact ⟨exclusive_writeJob hi fun container hruns => absurd hruns (hnot container),
      recorded_writeJob hcalm fun container hruns => absurd hruns (hnot container)⟩
  charged job before now w hi hjob hk _ := by
    have hkeeps : protocol.Keeps w (w.writeUser (some job.id) (recordJobStarted before (dateOf now))) :=
      keeps_of_eq rfl rfl
    refine ⟨hkeeps.1 hi, hk, fun jobId container _ hruns _ => absurd hruns (hk.1 jobId container)⟩
  password user passwordHash w _ := by
    have hkeeps : protocol.Keeps w (w.writeUser none { user with passwordHash := some passwordHash }) :=
      keeps_of_eq rfl rfl
    exact ⟨hkeeps.1, hkeeps.2.1⟩
  signedUp _ user w hi _ _ := by
    have hkeeps : protocol.Keeps w { w with users := w.users.put user } := keeps_of_eq rfl rfl
    exact ⟨hkeeps.1 hi, hkeeps.2.1⟩
  refused job w hi _ hk := by
    have hkeeps : protocol.Keeps w (w.record (.ran (some job.id))) := keeps_of_eq rfl rfl
    exact ⟨hkeeps.1 hi, hk.1, hkeeps.2.1⟩
  launched job spec containerId w hi hjob hk hspec hne hfresh := by
    obtain ⟨hvacant, hstatus⟩ := hk
    refine ⟨⟨fun jobId jobId' container container' hruns hruns' => ?_, fun jobId container hruns => ?_⟩,
      hne, fun jobId container hruns => ?_⟩
    · rw [(runsFor_runContainer hvacant hruns).1, (runsFor_runContainer hvacant hruns').1]
    · obtain ⟨-, hlabel⟩ := runsFor_runContainer hvacant hruns
      obtain rfl := Option.some.inj (hspec.symm.trans hlabel)
      exact ⟨job, hjob, .inl hstatus⟩
    · obtain ⟨rfl, hlabel⟩ := runsFor_runContainer hvacant hruns
      exact ⟨rfl, Option.some.inj (hlabel.symm.trans hspec)⟩
  killed containerId containers w hkill := by
    obtain ⟨hquieter, hstopped⟩ := of_kill hkill
    refine ⟨fun hi => hi.quieter hquieter, fun hcalm => hcalm.quieter hquieter,
      fun job hcontainer container hmem hid => hstopped container hmem ?_⟩
    exact Option.some.inj (hid.symm.trans hcontainer)
  occur v w w' he := by
    rcases World.occur_containers he with hsame | ⟨containerId, state, hstate, rfl⟩
    · have hkeeps : protocol.Keeps w w' := keeps_of_eq (World.occur_frame he).1 hsame
      exact ⟨hkeeps.1, hkeeps.2.1⟩
    · have hquieter := quieter_setState w.containers containerId hstate
      exact ⟨fun hi => hi.quieter hquieter, fun hcalm => hcalm.quieter hquieter⟩

/-- A sweep that fails a job while its container runs breaks the exclusivity at once. -/
theorem exclusive_iff_spares {D : Deployment} {r : SysRecord}
    (hr : r.Known D.system ((protocol.toProtocol D).outline D)) :
    Spares r.op r.before r.call ↔ Exclusive r.after := by
  obtain ⟨hi, hpre, o, a, he⟩ := hr
  obtain ⟨op, before, call, after⟩ := r
  have he : World.exec D.steady o before call = some (a, after) := he
  constructor
  · exact fun hspares => sound.exec hi hpre hspares he
  · rintro hafter rfl write hwrite container hruns
    cases call with
    | jobsUpdate seen new =>
      obtain rfl := Option.some.inj hwrite
      obtain rfl := World.exec_jobsUpdate he
      obtain ⟨job, hjob, hunderWay⟩ := hafter.owned new.id container hruns
      have hjob : (before.jobs.put new).get? new.id = some job := hjob
      rw [Table.get?_put_self] at hjob
      obtain rfl := Option.some.inj hjob
      obtain ⟨st, now, st', hw, -⟩ := hpre
      cases hw with
      | timeOut _ => rcases hunderWay with hs | hs <;> cases hs
    | _ => cases hwrite

end GpuExclusivity

open GpuExclusivity

/-- In every run of whole operations that starts with nothing running: at most one container
runs, for a job that is under way, in all states, if and only if no sweep fails a job whose
container is running. -/
theorem gpu_exclusive (D : Deployment) {w : World} {ls : List SysLabel} {rs : List SysRecord}
    {c : SysConf} (hw : Vacant w) (hl : ∀ l ∈ ls, l.Uninterrupted)
    (hr : D.system.run (.initial w) ls = some (rs, c)) :
    (Exclusive c.state ∧ ∀ r ∈ rs, Exclusive r.after) ↔
      ∀ r ∈ rs, Spares r.op r.before r.call := by
  have hi : Exclusive w := ⟨fun _ _ _ _ hruns => absurd hruns (hw _ _), fun _ _ hruns =>
    absurd hruns (hw _ _)⟩
  have hcalm : Recorded w := fun jobId container _ hruns => absurd hruns (hw jobId container)
  constructor
  · rintro ⟨-, hafter⟩
    have hrun := GpuExclusivity.sound.run hi hcalm hl hr fun r hmem hknown =>
      (exclusive_iff_spares hknown).mpr (hafter r hmem)
    exact fun r hmem => (exclusive_iff_spares (hrun.1 r hmem)).mpr (hafter r hmem)
  · intro hspares
    have hrun := GpuExclusivity.sound.run hi hcalm hl hr fun r hmem _ => hspares r hmem
    exact ⟨hrun.2.1, fun r hmem => (exclusive_iff_spares (hrun.1 r hmem)).mp (hspares r hmem)⟩

namespace GpuExclusivity

/-- A job is created, and its container is started. -/
def startOf (jobId containerId : String) : List SysLabel :=
  [.whole (.createJob "user" .act .hfHub "org/dataset" 100) (List.replicate 6 { text := jobId }),
    .whole .pollerTick (List.replicate 12 { text := containerId })]

/-- A container hangs for six minutes, and a sweep fails its job. The next job is started. -/
def hangingContainer : List SysLabel :=
  startOf "j" "c" ++ .whole .timeoutSweep (List.replicate 3 { time := seconds 360 }) ::
    startOf "k" "d"

def runs (w : World) (jobId containerId : String) : Bool :=
  (w.containers.get? containerId).any fun container =>
    container.state = .running && container.spec.jobId? = some jobId

theorem runsFor_of_runs {w : World} {jobId containerId : String}
    (h : runs w jobId containerId = true) :
    ∃ container, container.id = containerId ∧ RunsFor w.containers jobId container := by
  obtain ⟨container, hget, hruns⟩ := (Option.any_eq_true _ _).mp h
  obtain ⟨hrunning, hlabel⟩ := Bool.and_eq_true_iff.mp hruns
  exact ⟨container, Table.key_of_get? hget, Table.mem_of_get? hget, of_decide_eq_true hrunning,
    of_decide_eq_true hlabel⟩

end GpuExclusivity

/-- Two containers run at once. -/
theorem gpu_exclusive_fails : ¬ ∀ (ls : List SysLabel) (rs : List SysRecord) (c : SysConf),
    (∀ l ∈ ls, l.Uninterrupted) →
    Deployment.sample.system.run (.initial .sample) ls = some (rs, c) → Exclusive c.state := by
  intro h
  have hrun : (Deployment.sample.system.run (.initial .sample) hangingContainer).any (fun out =>
      runs out.2.state "j" "c" && runs out.2.state "k" "d") = true := by rfl
  obtain ⟨⟨rs, c⟩, hr, hboth⟩ := (Option.any_eq_true _ _).mp hrun
  obtain ⟨hfirst, hsecond⟩ := Bool.and_eq_true_iff.mp hboth
  obtain ⟨container, hid, hruns⟩ := runsFor_of_runs hfirst
  obtain ⟨container', hid', hruns'⟩ := runsFor_of_runs hsecond
  have hl : ∀ l ∈ hangingContainer, l.Uninterrupted := by
    simp [hangingContainer, startOf, Label.Uninterrupted]
  have heq := (h hangingContainer rs c hl hr).single _ _ _ _ hruns hruns'
  rw [heq, hid'] at hid
  exact absurd hid (by decide)

/-- As long as there is no sweep, one container runs alone. -/
theorem gpu_exclusive_start : ∃ rs c,
    Deployment.sample.system.run (.initial .sample) (startOf "j" "c") = some (rs, c) ∧
      runs c.state "j" "c" = true ∧ Exclusive c.state := by
  have hrun : (Deployment.sample.system.run (.initial .sample) (startOf "j" "c")).any (fun out =>
      runs out.2.state "j" "c" && out.1.all fun r => !sweeps r.op) = true := by rfl
  obtain ⟨⟨rs, c⟩, hr, hrest⟩ := (Option.any_eq_true _ _).mp hrun
  obtain ⟨hruns, hnone⟩ := Bool.and_eq_true_iff.mp hrest
  have hl : ∀ l ∈ startOf "j" "c", l.Uninterrupted := by simp [startOf, Label.Uninterrupted]
  have hempty : Vacant .sample := fun _ _ hruns => Table.not_mem_empty _ hruns.1
  refine ⟨rs, c, hr, hruns, ((gpu_exclusive .sample hempty hl hr).mpr fun r hmem hsweep => ?_).1⟩
  have hnot := List.all_eq_true.mp hnone r hmem
  rw [hsweep] at hnot
  cases hnot

end TrainVla
