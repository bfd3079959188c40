import TrainVla.System.Soundness
import TrainVla.System.JobWrites

/-! Protocols for operations that nobody interrupts. What such an operation has read is what
is stored, so that its writes can be followed document by document. -/
namespace TrainVla

open Interaction Store

/-- An invariant, what holds besides when nothing is unsettled, and what is known in each stage
of a stored document. -/
structure AtomicProtocol where
  inv : World → Prop
  calm : World → Prop
  cond : Op → World → Call → Prop
  knows : Stage → Job → World → Prop
  /-- what the day of a quota check says about the user -/
  dated : User → ℤ → Prop

namespace AtomicProtocol

variable (A : AtomicProtocol) (D : Deployment)

def toProtocol : Protocol where
  inv := A.inv
  rely _ w w' := w' = w
  cond := A.cond
  holds _ f w :=
    match f with
    | .calm => A.calm w
    | .time now => w.clock = now
    | .job st job => w.jobs.get? job.id = some job ∧ A.knows st job w
    | .free => ∀ job ∈ w.jobs, job.status ∉ JobPoller.activeContainerStatuses
    | .owner user => w.users.get? user.id = some user
    | .slots user jobs => w.users.get? user.id = some user ∧ jobs = w.jobs.listForUser user.id
    | .dated user jobs today => w.users.get? user.id = some user ∧
      jobs = w.jobs.listForUser user.id ∧ A.dated user today ∧ (D.steady = true → today ≤ w.clock)
    | .stamped user jobs today now => w.users.get? user.id = some user ∧
      jobs = w.jobs.listForUser user.id ∧ A.dated user today ∧ (D.steady = true → today ≤ now) ∧
      w.clock = now
    | .listed objectPath data => w.objects.get? objectPath = some (objectPath, data)
    | .extracting _ _ => True
    | .uploaded _ => True
    | .cleared jobId => w.jobDirs.get? jobId = none

/-- Nothing that the protocol speaks of gets lost on the way from one world to another. -/
def Keeps (w w' : World) : Prop :=
  (A.inv w → A.inv w') ∧ (A.calm w → A.calm w') ∧
    ∀ st job, st ≠ .read → A.knows st job w → A.knows st job w'

/-- The obligations, one for each thing that an operation or the environment can do. -/
structure Sound : Prop where
  alike : ∀ w w', w.Alike w' → A.Keeps w w'
  tick : ∀ w t, (D.steady = true → w.clock ≤ t) → A.Keeps w { w with clock := t }
  read : ∀ job w, A.knows .read job w
  next : ∀ job jobs w, A.inv w → (∀ job ∈ w.jobs, job.status ∉ JobPoller.activeContainerStatuses) →
    w.jobs.listByStatuses [.queued] = job :: jobs → A.knows .next job w
  owned : ∀ job user w, A.inv w → A.knows .next job w → w.users.get? job.userId = some user →
    A.knows (.owned user) job w
  dated : ∀ user w, A.inv w → w.users.get? user.id = some user → A.dated user w.clock
  sawProgress : ∀ job progress file w, A.inv w → w.jobs.get? job.id = some job →
    file = w.progressFile job.id →
    ProgressReader.readProgress D.lib file = .ok progress →
    A.cond .completionTick w (.readProgressFile job.id) →
    A.knows (.sawProgress progress) job w ∧
      (job.container? = none → A.knows (.polled progress none) job w)
  polled : ∀ job progress containerId w, A.inv w → A.knows (.sawProgress progress) job w →
    job.container? = some containerId →
    A.knows (.polled progress (w.containers.getExitCode containerId)) job w
  wrote : ∀ op st seen now st' new w, A.inv w → JobWrite op st seen now st' new →
    w.jobs.get? new.id = some seen → A.knows st seen w → w.clock = now →
    (st.Settled → A.calm w) → A.cond op w (.jobsUpdate seen new) →
    A.inv (w.writeJob new) ∧ A.knows st' new (w.writeJob new) ∧
      (st'.Settled → A.calm (w.writeJob new))
  created : ∀ op user today now job w, A.inv w →
    NewJob user (w.jobs.listForUser user.id) today now job → user.id = job.userId →
    w.jobs.get? job.id = none → w.users.get? user.id = some user → A.dated user today →
    (D.steady = true → today ≤ now) → w.clock = now → A.calm w →
    A.cond op w (.jobsCreate job) → A.inv (w.writeJob job) ∧ A.calm (w.writeJob job)
  charged : ∀ job before now w, A.inv w → w.jobs.get? job.id = some job →
    A.knows (.started before) job w → job.heartbeatAt = some now →
    let w' := w.writeUser (some job.id) (recordJobStarted before (dateOf now))
    A.inv w' ∧ A.knows .charged job w' ∧ A.calm w'
  password : ∀ user passwordHash w, w.users.get? user.id = some user →
    let w' := w.writeUser none { user with passwordHash := some passwordHash }
    (A.inv w → A.inv w') ∧ (A.calm w → A.calm w')
  signedUp : ∀ op user w, A.inv w → NewUser op user → w.users.get? user.id = none →
    let w' := { w with users := w.users.put user }
    A.inv w' ∧ (A.calm w → A.calm w')
  refused : ∀ job w, A.inv w → w.jobs.get? job.id = some job → A.knows .charged job w →
    let w' := w.record (.ran (some job.id))
    A.inv w' ∧ A.knows .refused job w' ∧ (A.calm w → A.calm w')
  launched : ∀ job spec containerId w, A.inv w → w.jobs.get? job.id = some job →
    A.knows .charged job w → spec.jobId? = some job.id → containerId ≠ "" →
    w.containers.get? containerId = none →
    let w' := (w.runContainer spec containerId).record (.ran (some job.id))
    A.inv w' ∧ A.knows (.launched containerId) job w'
  killed : ∀ containerId containers w, w.containers.kill containerId = .ok containers →
    let w' := { w with containers := containers }
    (A.inv w → A.inv w') ∧ (A.calm w → A.calm w') ∧
      ∀ job, job.container? = some containerId → A.knows .dead job w'
  occur : ∀ v w w', World.occur v w = some w' → (A.inv w → A.inv w') ∧ (A.calm w → A.calm w')

variable {A D}

/-- Calls other than the writes, the moves of containers and the reading of the clock. -/
theorem Sound.keeps (hA : A.Sound D) {o : Choice} {w w' : World} {c : Call} {r : c.Resp}
    (he : World.exec D.steady o w c = some (r, w')) (hjobs : c.writesJobs = false)
    (husers : c.writesUsers = false) (hcontainers : c.movesContainers = false) : A.Keeps w w' := by
  by_cases hclock : c.movesClock = false
  · exact hA.alike w w' ((World.exec_frame he).alike hjobs husers hcontainers hclock)
  · cases c with
    | now =>
      obtain ⟨rfl, hsteady⟩ := World.exec_now he
      exact hA.tick w r hsteady
    | _ => exact absurd rfl hclock

theorem Sound.holds_job (hA : A.Sound D) {op : Op} {w w' : World} {st : Stage} {job : Job}
    (hk : A.Keeps w w') (hjobs : w'.jobs = w.jobs)
    (h : (A.toProtocol D).holds op (.job st job) w) : (A.toProtocol D).holds op (.job st job) w' := by
  refine ⟨by rw [hjobs]; exact h.1, ?_⟩
  by_cases hst : st = .read
  · rw [hst]
    exact hA.read job w'
  · exact hk.2.2 st job hst h.2

/-- The start of a container, which prepares the mounts first. -/
theorem Sound.ran (hA : A.Sound D) {o : Choice} {w w' : World} {job : Job} {spec : ContainerSpec}
    {r : Except Exc String} (hi : A.inv w) (hstored : w.jobs.get? job.id = some job)
    (hk : A.knows .charged job w) (hspec : spec.jobId? = some job.id)
    (he : World.exec D.steady o w (.dockerRun spec) = some (r, w')) :
    A.inv w' ∧ ((∃ e, r = .error e) → A.knows .refused job w' ∧ (A.calm w → A.calm w')) ∧
      ∀ containerId, r = .ok containerId → A.knows (.launched containerId) job w' := by
  have halike := w.alike_prepareMounts o.time spec
  have hkeeps := hA.alike w _ halike
  have hi' := hkeeps.1 hi
  have hstored' : (w.prepareMounts o.time spec).jobs.get? job.id = some job := by
    rw [halike.jobs, hstored]
  have hk' := hkeeps.2.2 .charged job nofun hk
  rcases World.exec_dockerRun he with ⟨⟨e, rfl⟩, rfl⟩ | ⟨id, rfl, hid, hfresh, rfl⟩ <;> rw [hspec]
  · have hrefused := hA.refused job (w.prepareMounts o.time spec) hi' hstored' hk'
    exact ⟨hrefused.1, fun _ => ⟨hrefused.2.1, fun hcalm => hrefused.2.2 (hkeeps.2.1 hcalm)⟩, nofun⟩
  · have hlaunched := hA.launched job spec id (w.prepareMounts o.time spec) hi' hstored' hk' hspec
      hid (by rw [halike.containers, hfresh])
    refine ⟨hlaunched.1, fun herror => ?_, fun containerId hok => ?_⟩
    · obtain ⟨e, he⟩ := herror
      cases he
    · obtain rfl := Except.ok.inj hok
      exact hlaunched.2

/-- What is known stays known where neither documents nor users nor containers are written. -/
theorem Sound.survive_quiet (hA : A.Sound D) {op : Op} {o : Choice} {w w' : World} {c : Call}
    {r : c.Resp} {f : Fact} (he : World.exec D.steady o w c = some (r, w')) (hs : Survives c f)
    (hjobs : c.writesJobs = false) (husers : c.writesUsers = false)
    (hcontainers : c.movesContainers = false) (hnow : c.movesClock = true → Survives .now f)
    (hf : (A.toProtocol D).holds op f w) : (A.toProtocol D).holds op f w' := by
  have hframe := World.exec_frame he
  have hk := hA.keeps he hjobs husers hcontainers
  cases f with
  | calm => exact hk.2.1 hf
  | time now =>
    cases hclock : c.movesClock with
    | true => exact (hnow hclock).elim
    | false => exact (hframe.clock hclock).trans hf
  | job st job => exact hA.holds_job hk (hframe.jobs hjobs) hf
  | free =>
    show ∀ job ∈ w'.jobs, _
    rw [hframe.jobs hjobs]
    exact hf
  | owner user =>
    show w'.users.get? user.id = some user
    rw [hframe.users husers]
    exact hf
  | slots user jobs =>
    obtain ⟨huser, hjobs'⟩ := hf
    exact ⟨by rw [hframe.users husers, huser], by rw [hframe.jobs hjobs, hjobs']⟩
  | dated user jobs today =>
    obtain ⟨huser, hjobs', hdated, htoday⟩ := hf
    refine ⟨by rw [hframe.users husers, huser], by rw [hframe.jobs hjobs, hjobs'], hdated,
      fun hsteady => ?_⟩
    have hle := htoday hsteady
    cases c with
    | now =>
      obtain ⟨rfl, hclock⟩ := World.exec_now he
      exact hle.trans (hclock hsteady)
    | _ =>
      rw [hframe.clock rfl]
      exact hle
  | stamped user jobs today now =>
    obtain ⟨huser, hjobs', hdated, htoday, hclock⟩ := hf
    refine ⟨by rw [hframe.users husers, huser], by rw [hframe.jobs hjobs, hjobs'], hdated,
      htoday, ?_⟩
    cases hmoves : c.movesClock with
    | true => exact (hnow hmoves).elim
    | false => exact (hframe.clock hmoves).trans hclock
  | listed objectPath data =>
    have hobjects : c.writesObjects = false := by
      cases c <;> first | rfl | exact hs.elim
    exact (congrArg (Table.get? · objectPath) (hframe.objects hobjects)).trans hf
  | extracting objectPath data => trivial
  | uploaded jobId => trivial
  | cleared jobId =>
    have hdirs : c.makesJobDir = false := by
      cases c <;> first | rfl | exact hs.elim | cases hcontainers
    exact hframe.cleared hdirs jobId hf

theorem Sound.survive (hA : A.Sound D) {op : Op} {o : Choice} {w w' : World} {c : Call} {r : c.Resp}
    {f : Fact} (hi : A.inv w) (hpre : (A.toProtocol D).pre D op w c) (hc : A.cond op w c)
    (he : World.exec D.steady o w c = some (r, w')) (hs : Survives c f)
    (hf : (A.toProtocol D).holds op f w) : (A.toProtocol D).holds op f w' := by
  have hframe := World.exec_frame he
  -- the clock is not read
  have htime : ∀ now, c.movesClock = false → f = .time now → (A.toProtocol D).holds op f w' := by
    rintro now hclock rfl
    exact (hframe.clock hclock).trans hf
  cases c with
  | jobsCreate job =>
    rcases hs with rfl | ⟨now, hnow⟩
    · obtain ⟨rfl, hfresh⟩ := World.exec_jobsCreate he
      obtain ⟨-, user, jobs, today, now, hnew, hstamped, hid, -⟩ := hpre
      obtain ⟨huser, rfl, hdated, htoday, hclock⟩ := hstamped
      have hcreated := hA.created op user today now job w hi hnew hid hfresh huser hdated htoday
        hclock hf hc
      exact hcreated.2
    · exact htime now rfl hnow
  | jobsUpdate seen new =>
    cases f with
    | job st job =>
      cases st with
      | read =>
        obtain rfl := World.exec_jobsUpdate he
        exact ⟨(Table.get?_put_of_ne hs).trans hf.1, hA.read job _⟩
      | _ => exact hs.elim
    | calm => exact hs.elim
    | time now => exact htime now rfl rfl
    | _ => simp [Survives] at hs
  | usersUpdate charge seen user =>
    cases charge with
    | none =>
      rcases hs with rfl | ⟨now, hnow⟩
      · obtain rfl := World.exec_usersUpdate he
        obtain ⟨-, passwordHash, huser, rfl⟩ := hpre
        exact (hA.password seen passwordHash w huser).2 hf
      · exact htime now rfl hnow
    | some jobId =>
      cases f with
      | time now => exact htime now rfl rfl
      | _ => simp [Survives] at hs
  | usersCreate user =>
    rcases hs with rfl | ⟨now, hnow⟩
    · obtain ⟨rfl, hfresh⟩ := World.exec_usersCreate he
      exact (hA.signedUp op user w hi hpre hfresh).2 hf
    · exact htime now rfl hnow
  | dockerRun spec =>
    cases f with
    | time now => exact htime now rfl rfl
    | _ => simp [Survives] at hs
  | dockerKill containerId =>
    cases f with
    | job st job =>
      cases st with
      | read =>
        refine ⟨?_, hA.read job w'⟩
        rw [hframe.jobs rfl]
        exact hf.1
      | _ => exact hs.elim
    | calm =>
      rcases World.exec_dockerKill he with ⟨-, rfl⟩ | ⟨containers, hkill, -, rfl⟩
      · exact hf
      · exact (hA.killed containerId containers w hkill).2.1 hf
    | time now => exact htime now rfl rfl
    | _ => simp [Survives] at hs
  | now => exact hA.survive_quiet he hs rfl rfl rfl (fun _ => hs) hf
  | _ =>
    exact hA.survive_quiet he hs rfl rfl rfl (fun hmoves => absurd hmoves Bool.false_ne_true) hf

/-- A write whose facts are all known. -/
theorem Sound.wrote_of_facts (hA : A.Sound D) {op : Op} {fs : List Fact} {st st' : Stage}
    {seen new : Job} {now : ℤ} {w : World} (hi : A.inv w)
    (hfs : ∀ g ∈ fs, (A.toProtocol D).holds op g w) (h : JobWrite op st seen now st' new)
    (hjob : .job st seen ∈ fs) (htime : .time now ∈ fs) (hcalm : st.Settled → .calm ∈ fs)
    (hc : A.cond op w (.jobsUpdate seen new)) : A.inv (w.writeJob new) ∧
      A.knows st' new (w.writeJob new) ∧ (st'.Settled → A.calm (w.writeJob new)) := by
  obtain ⟨hstored, hk⟩ := hfs _ hjob
  rw [← h.id_eq] at hstored
  have hnow : w.clock = now := hfs _ htime
  exact hA.wrote op st seen now st' new w hi h hstored hk hnow (fun hs => hfs _ (hcalm hs)) hc

theorem Sound.learn (hA : A.Sound D) {op : Op} {o : Choice} {w w' : World} {c : Call} {r : c.Resp}
    {fs : List Fact} {f : Fact} (hi : A.inv w) (hpre : (A.toProtocol D).pre D op w c)
    (hc : A.cond op w c) (he : World.exec D.steady o w c = some (r, w'))
    (hl : Learns D op fs c r f) (hfs : ∀ g ∈ fs, (A.toProtocol D).holds op g w) :
    (A.toProtocol D).holds op f w' := by
  have hjobs : c.writesJobs = false → w'.jobs = w.jobs := (World.exec_frame he).jobs
  cases hl with
  | time => rw [(World.exec_now he).1]; rfl
  | got =>
    obtain ⟨hget, rfl⟩ := Prod.mk.inj (Option.some.inj he)
    exact ⟨Table.get?_of_mem (Table.mem_of_get? hget), hA.read _ _⟩
  | found hmem =>
    obtain ⟨rfl, rfl⟩ := Prod.mk.inj (Option.some.inj he)
    exact ⟨Table.get?_of_mem (JobTable.mem_listByStatuses.mp hmem).1, hA.read _ _⟩
  | free =>
    obtain ⟨hnil, rfl⟩ := Prod.mk.inj (Option.some.inj he)
    exact fun job hjob => JobTable.listByStatuses_eq_nil hnil hjob
  | @next job jobs =>
    obtain ⟨hlist, rfl⟩ := Prod.mk.inj (Option.some.inj he)
    have hmem := JobTable.mem_listByStatuses.mp (hlist ▸ List.mem_cons_self ..)
    have hfree := hfs _ (List.mem_singleton_self _)
    exact ⟨Table.get?_of_mem hmem.1, hA.next job jobs w hi hfree hlist⟩
  | @owned job user =>
    obtain ⟨huser, rfl⟩ := Prod.mk.inj (Option.some.inj he)
    obtain ⟨hstored, hk⟩ := hfs _ (List.mem_singleton_self _)
    exact ⟨hstored, hA.owned job user w hi hk huser⟩
  | owner =>
    obtain ⟨huser, rfl⟩ := Prod.mk.inj (Option.some.inj he)
    exact Table.get?_of_mem (Table.mem_of_get? huser)
  | slots =>
    obtain ⟨rfl, rfl⟩ := Prod.mk.inj (Option.some.inj he)
    exact ⟨hfs _ (List.mem_singleton_self _), rfl⟩
  | @dated _ user jobs today =>
    obtain ⟨rfl, hsteady⟩ := World.exec_now he
    obtain ⟨huser, hjobs⟩ := hfs _ (List.mem_singleton_self _)
    have hi' := (hA.tick w today hsteady).1 hi
    exact ⟨huser, hjobs, hA.dated user _ hi' huser, fun _ => le_rfl⟩
  | stamped =>
    obtain ⟨rfl, hsteady⟩ := World.exec_now he
    obtain ⟨huser, hslots, hdated, htoday⟩ := hfs _ (List.mem_singleton_self _)
    exact ⟨huser, hslots, hdated, fun hs => (htoday hs).trans (hsteady hs), rfl⟩
  | listed =>
    obtain ⟨hstored, rfl⟩ := World.exec_open he
    exact hstored
  | extracting => trivial
  | uploaded => trivial
  | cleared =>
    obtain ⟨-, rfl⟩ := Prod.mk.inj (Option.some.inj he)
    show (w.jobDirs.erase _).get? _ = none
    rw [Table.get?_erase, if_pos rfl]
  | wrote h hjob htime hcalm =>
    obtain rfl := World.exec_jobsUpdate he
    have hwrote := hA.wrote_of_facts hi hfs h hjob htime hcalm hc
    exact ⟨Table.get?_put_self w.jobs _, hwrote.2.1⟩
  | calmWrote h hjob htime hcalm hst =>
    obtain rfl := World.exec_jobsUpdate he
    exact (hA.wrote_of_facts hi hfs h hjob htime hcalm hc).2.2 hst
  | @charged job user user' =>
    obtain rfl := World.exec_usersUpdate he
    obtain ⟨hstored, -⟩ := hfs _ (List.mem_singleton_self _)
    obtain ⟨-, job', now, ⟨hstored', hk⟩, hid, hheartbeat, rfl⟩ := hpre
    rw [← hid, hstored] at hstored'
    obtain rfl := Option.some.inj hstored'
    exact ⟨hstored, (hA.charged job user now w hi hstored hk hheartbeat).2.1⟩
  | @calmCharged job user user' =>
    obtain rfl := World.exec_usersUpdate he
    obtain ⟨-, job', now, ⟨hstored, hk⟩, hid, hheartbeat, rfl⟩ := hpre
    rw [hid]
    exact (hA.charged job' user now w hi hstored hk hheartbeat).2.2
  | launched hspec =>
    obtain ⟨hstored, hk⟩ := hfs _ (List.mem_singleton_self _)
    refine ⟨?_, (hA.ran hi hstored hk hspec he).2.2 _ rfl⟩
    rw [hjobs rfl, hstored]
  | refused hspec =>
    obtain ⟨hstored, hk⟩ := hfs _ (List.mem_singleton_self _)
    refine ⟨?_, ((hA.ran hi hstored hk hspec he).2.1 ⟨_, rfl⟩).1⟩
    rw [hjobs rfl, hstored]
  | calmRefused =>
    obtain ⟨-, job, ⟨hstored, hk⟩, hspec⟩ := hpre
    exact ((hA.ran hi hstored hk hspec he).2.1 ⟨_, rfl⟩).2 (hfs _ (List.mem_singleton_self _))
  | killed hcontainer =>
    obtain ⟨hstored, -⟩ := hfs _ (List.mem_singleton_self _)
    rcases World.exec_dockerKill he with ⟨⟨e, he⟩, -⟩ | ⟨containers, hkill, -, rfl⟩
    · cases he
    · exact ⟨hstored, (hA.killed _ containers w hkill).2.2 _ hcontainer⟩
  | sawProgress hprogress =>
    obtain ⟨hfile, rfl⟩ := Prod.mk.inj (Option.some.inj he)
    obtain ⟨hstored, -⟩ := hfs _ (List.mem_singleton_self _)
    exact ⟨hstored, (hA.sawProgress _ _ _ w hi hstored hfile.symm hprogress hc).1⟩
  | sawNoContainer hprogress hcontainer =>
    obtain ⟨hfile, rfl⟩ := Prod.mk.inj (Option.some.inj he)
    obtain ⟨hstored, -⟩ := hfs _ (List.mem_singleton_self _)
    exact ⟨hstored, (hA.sawProgress _ _ _ w hi hstored hfile.symm hprogress hc).2 hcontainer⟩
  | polled hcontainer =>
    obtain ⟨rfl, rfl⟩ := Prod.mk.inj (Option.some.inj he)
    obtain ⟨hstored, hk⟩ := hfs _ (List.mem_singleton_self _)
    exact ⟨hstored, hA.polled _ _ _ w hi hk hcontainer⟩

theorem Sound.valid (hA : A.Sound D) : (A.toProtocol D).Valid D where
  preorders := ⟨fun _ _ => rfl, fun _ _ _ _ h₁ h₂ => h₂.trans h₁⟩
  stable op f w w' hrely _ hf := by
    obtain rfl : w' = w := hrely
    exact hf
  survive _ _ _ _ _ _ _ := hA.survive
  learn _ _ _ _ _ _ _ _ := hA.learn

/-- One call keeps the invariant. -/
theorem Sound.exec (hA : A.Sound D) {op : Op} {o : Choice} {w w' : World} {c : Call} {r : c.Resp}
    (hi : A.inv w) (hpre : (A.toProtocol D).pre D op w c) (hc : A.cond op w c)
    (he : World.exec D.steady o w c = some (r, w')) : A.inv w' := by
  cases c with
  | jobsCreate job =>
    obtain ⟨rfl, hfresh⟩ := World.exec_jobsCreate he
    obtain ⟨-, user, jobs, today, now, hnew, hstamped, hid, hcalm, -⟩ := hpre
    obtain ⟨huser, rfl, hdated, htoday, hclock⟩ := hstamped
    have hcreated := hA.created op user today now job w hi hnew hid hfresh huser hdated htoday
      hclock hcalm hc
    exact hcreated.1
  | jobsUpdate seen new =>
    obtain rfl := World.exec_jobsUpdate he
    obtain ⟨st, now, st', hw, ⟨hstored, hk⟩, hclock, hcalm, -⟩ := hpre
    rw [← hw.id_eq] at hstored
    exact (hA.wrote op st seen now st' new w hi hw hstored hk hclock hcalm hc).1
  | usersUpdate charge seen user =>
    obtain rfl := World.exec_usersUpdate he
    cases charge with
    | none =>
      obtain ⟨-, passwordHash, huser, rfl⟩ := hpre
      exact (hA.password seen passwordHash w huser).1 hi
    | some jobId =>
      obtain ⟨-, job, now, ⟨hstored, hk⟩, rfl, hheartbeat, rfl⟩ := hpre
      exact (hA.charged job seen now w hi hstored hk hheartbeat).1
  | usersCreate user =>
    obtain ⟨rfl, hfresh⟩ := World.exec_usersCreate he
    exact (hA.signedUp op user w hi hpre hfresh).1
  | dockerRun spec =>
    obtain ⟨-, job, ⟨hstored, hk⟩, hspec⟩ := hpre
    exact (hA.ran hi hstored hk hspec he).1
  | dockerKill containerId =>
    rcases World.exec_dockerKill he with ⟨-, rfl⟩ | ⟨containers, hkill, -, rfl⟩
    · exact hi
    · exact (hA.killed containerId containers w hkill).1 hi
  | _ => exact (hA.keeps he rfl rfl rfl).1 hi

/-- No schedule of whole operations has two of them in flight. -/
theorem Sound.protocol (hA : A.Sound D) {permit : SysLabel → Prop}
    (hpermit : ∀ op, ¬ InFlight D.system permit op) : (A.toProtocol D).Sound D permit where
  toValid := hA.valid
  exec _ _ _ _ _ _ hi hpre hc he :=
    ⟨hA.exec hi hpre hc he, fun op' hover => absurd hover.1 (hpermit op')⟩
  occur v w w' _ hi he :=
    ⟨(hA.occur v w w' he).1 hi, fun op' hfly => absurd hfly (hpermit op')⟩

/-- Whole runs of operations that are not interrupted. -/
theorem Sound.run (hA : A.Sound D) {w : World} {ls : List SysLabel} {rs : List SysRecord}
    {c : SysConf} (hi : A.inv w) (hcalm : A.calm w) (hl : ∀ l ∈ ls, l.Uninterrupted)
    (hr : D.system.run (.initial w) ls = some (rs, c))
    (hcond : ∀ r ∈ rs, r.Known D.system ((A.toProtocol D).outline D) →
      A.cond r.op r.before r.call) :
    (∀ r ∈ rs, r.Known D.system ((A.toProtocol D).outline D)) ∧
      A.inv c.state ∧ A.calm c.state := by
  have hnone : ∀ op, ¬ InFlight D.system Label.Uninterrupted op := by
    rintro op (⟨-, h⟩ | ⟨-, h⟩) <;> exact h
  have hsteps := (hA.protocol hnone).steps
  have hrun := hsteps.run_uninterrupted (fun w (h : A.inv w ∧ A.calm w) => h.1) ?_ ?_ ⟨hi, hcalm⟩
    (fun l hmem => ⟨hl l hmem, hl l hmem⟩) hr hcond
  · exact hrun
  · intro op _ w hw
    exact (hA.valid.safe op hw.2).mono fun _ _ hi hpost => ⟨hi, hpost.1⟩
  · intro v w w' _ hw he
    exact ⟨(hA.occur v w w' he).1 hw.1, (hA.occur v w w' he).2 hw.2⟩

end AtomicProtocol

end TrainVla
