import TrainVla.System.Soundness
import TrainVla.System.WorkerExceptions
import TrainVla.System.JobWrites
import TrainVla.Interaction.Restriction

/-! The guard of the state machine and the lookup of an owner never fire. -/
namespace TrainVla

open Interaction Store

namespace Guards

/-- The owner of a job is stored. -/
def Owned (w : World) (job : Job) : Prop := (w.users.get? job.userId).isSome = true

/-- No user is deleted. -/
def UsersStay (w w' : World) : Prop :=
  ∀ userId, (w.users.get? userId).isSome = true → (w'.users.get? userId).isSome = true

def protocol : Protocol where
  inv w := ∀ job ∈ w.jobs, Owned w job
  rely _ := UsersStay
  cond _ _ _ := True
  holds _ f w :=
    match f with
    | .job _ job => Owned w job
    | .owner user | .slots user _ => (w.users.get? user.id).isSome = true
    | .dated user _ _ | .stamped user _ _ _ => (w.users.get? user.id).isSome = true
    | _ => True

variable {D : Deployment} {op : Op} {o : Choice} {w w' : World} {c : Call} {r : c.Resp}

theorem holds_stays {f : Fact} (h : UsersStay w w') (hf : protocol.holds op f w) :
    protocol.holds op f w' := by
  cases f with
  | job st job => exact h _ hf
  | owner user => exact h _ hf
  | slots user jobs => exact h _ hf
  | dated user jobs today => exact h _ hf
  | stamped user jobs today now => exact h _ hf
  | _ => trivial

theorem usersStay_exec (he : World.exec D.steady o w c = some (r, w')) : UsersStay w w' := by
  intro userId hsome
  have hframe : c.writesUsers = false → (w'.users.get? userId).isSome = true := by
    intro h
    rwa [(World.exec_frame he).users h]
  cases c with
  | usersCreate user =>
    obtain ⟨rfl, -⟩ := World.exec_usersCreate he
    exact Table.isSome_get?_put user hsome
  | usersUpdate charge seen user =>
    obtain rfl := World.exec_usersUpdate he
    exact Table.isSome_get?_put user hsome
  | _ => exact hframe rfl

/-- A job that is written has an owner. -/
theorem inv_put {job : Job} (hi : protocol.inv w) (hjob : Owned w job) :
    protocol.inv (w.writeJob job) := by
  intro other hother
  rcases Table.mem_put.mp hother with rfl | ⟨hmem, -⟩
  · exact hjob
  · exact hi other hmem

theorem inv_exec (hi : protocol.inv w) (hpre : protocol.pre D op w c)
    (he : World.exec D.steady o w c = some (r, w')) : protocol.inv w' := by
  have hframe : c.writesJobs = false → protocol.inv w' := by
    intro h job hjob
    rw [(World.exec_frame he).jobs h] at hjob
    exact usersStay_exec he _ (hi job hjob)
  cases c with
  | jobsCreate job =>
    obtain ⟨rfl, -⟩ := World.exec_jobsCreate he
    obtain ⟨-, user, owned, today, now, -, huser, hid, -⟩ := hpre
    refine inv_put hi ?_
    unfold Owned
    rw [← hid]
    exact huser
  | jobsUpdate seen new =>
    obtain rfl := World.exec_jobsUpdate he
    obtain ⟨st, now, st', hw, hseen, -⟩ := hpre
    have hseen : Owned w seen := hseen
    refine inv_put hi ?_
    unfold Owned
    rw [hw.sameOrigin.userId]
    exact hseen
  | _ => exact hframe rfl

theorem valid : protocol.Valid D where
  preorders := ⟨fun _ _ _ => id, fun _ _ _ _ h₁ h₂ userId h => h₂ userId (h₁ userId h)⟩
  stable _ _ _ _ hrely _ hf := holds_stays hrely hf
  survive _ _ _ _ _ _ _ _ _ _ he _ hf := holds_stays (usersStay_exec he) hf
  learn op o w c r w' fs f hi hpre _ he hl hfs := by
    have hkept : ∀ {g}, g ∈ fs → protocol.holds op g w' :=
      fun hg => holds_stays (usersStay_exec he) (hfs _ hg)
    have hread : ∀ {job}, job ∈ w.jobs → Owned w' job :=
      fun hjob => usersStay_exec he _ (hi _ hjob)
    have hfound : ∀ {userId user}, w.users.get? userId = some user →
        (w'.users.get? user.id).isSome = true := by
      intro userId user huser
      refine usersStay_exec he _ ?_
      rw [Table.get?_of_mem (Table.mem_of_get? huser)]
      rfl
    cases hl with
    | got => exact hread (Table.mem_of_get? (Prod.mk.inj (Option.some.inj he)).1)
    | found hmem =>
      obtain ⟨rfl, -⟩ := Prod.mk.inj (Option.some.inj he)
      exact hread (JobTable.mem_listByStatuses.mp hmem).1
    | next =>
      obtain ⟨hjobs, -⟩ := Prod.mk.inj (Option.some.inj he)
      exact hread (JobTable.mem_listByStatuses.mp (hjobs ▸ List.mem_cons_self)).1
    | owner => exact hfound (Prod.mk.inj (Option.some.inj he)).1
    | slots => exact hkept (g := .owner _) (List.mem_singleton_self _)
    | dated => exact hkept (g := .slots _ _) (List.mem_singleton_self _)
    | stamped => exact hkept (g := .dated _ _ _) (List.mem_singleton_self _)
    | wrote h hjob _ _ =>
      have hseen := hkept hjob
      unfold protocol Owned at hseen ⊢
      dsimp only at hseen ⊢
      rwa [h.sameOrigin.userId]
    | owned => exact hkept (g := .job .next _) (List.mem_singleton_self _)
    | charged => exact hkept (g := .job (.started _) _) (List.mem_singleton_self _)
    | launched _ => exact hkept (g := .job .charged _) (List.mem_singleton_self _)
    | refused _ => exact hkept (g := .job .charged _) (List.mem_singleton_self _)
    | killed _ => exact hkept (g := .job .read _) (List.mem_singleton_self _)
    | sawProgress _ => exact hkept (g := .job .read _) (List.mem_singleton_self _)
    | sawNoContainer _ _ => exact hkept (g := .job .read _) (List.mem_singleton_self _)
    | polled _ => exact hkept (g := .job (.sawProgress _) _) (List.mem_singleton_self _)
    | _ => trivial

theorem sound {permit : SysLabel → Prop} : protocol.Sound D permit where
  toValid := valid
  exec _ _ _ _ _ _ hi hpre _ he := ⟨inv_exec hi hpre he, fun _ _ => usersStay_exec he⟩
  occur v w w' _ hi he := by
    obtain ⟨hjobs, husers, -⟩ := World.occur_frame he
    refine ⟨fun job hjob => ?_, fun op' _ userId h => ?_⟩
    · rw [hjobs] at hjob
      unfold Owned
      rw [husers]
      exact hi job hjob
    · rwa [husers]

section

/-- The system in an environment that raises none of the exceptions of the services. -/
def ordinarySystem (D : Deployment) : System := D.system.restrict Choice.Ordinary

theorem admits_of_exec (he : (ordinarySystem D).exec o w c = some (r, w')) : D.Admits c r := by
  obtain ⟨ho, he⟩ := Machine.exec_of_restrict he
  exact ⟨o, w, w', ho, he⟩

/-- What may happen while a tick of the poller is under way. -/
def SafeTick (D : Deployment) {α : Type} (p : Service α) (w : World) : Prop :=
  Safe (ordinarySystem D).exec (protocol.outline D).unconditional .pollerTick
    (fun r _ => Plain r) p w

theorem exec_of_ordinary (he : (ordinarySystem D).exec o w c = some (r, w')) :
    World.exec D.steady o w c = some (r, w') := (Machine.exec_of_restrict he).2

theorem preorders : (protocol.outline D).unconditional.Preorders := by
  have hvalid : protocol.Valid D := valid
  exact ⟨hvalid.preorders.refl, hvalid.preorders.trans⟩

theorem safeTick_of_raisesPlain {α : Type} {p : Service α} (hp : RaisesPlain D p) (w : World) :
    SafeTick D p w := Safe.of_yields (fun _ _ _ _ _ => admits_of_exec) hp

theorem safeTick_bind {α β : Type} {p : Service α} {f : α → Service β} (hp : RaisesPlain D p)
    (hf : ∀ a w, protocol.inv w → SafeTick D (f a) w) (w : World) : SafeTick D (p >>= f) w := by
  refine Safe.bind (preorders (D := D)) (Safe.mono (safeTick_of_raisesPlain hp w) fun r w' hi hr => ?_)
  cases r with
  | ok a => exact hf a w' hi
  | error e => exact plain_error (hr e rfl)

/-- The owner of a job that was listed can be looked up. -/
theorem safeTick_startJob (hlib : D.lib.Ordinary) {job : Job} (hstatus : job.status = .queued)
    (howned : Owned w job) : SafeTick D (JobPoller.startJob D.lib D.settings job) w := by
  refine Safe.perform fun w₁ hrely₁ _ => ⟨trivial, fun _ o now w₂ he => ?_⟩
  have howned₂ : Owned w₂ job := by
    have hstays := usersStay_exec (exec_of_ordinary he)
    exact hstays _ (hrely₁ _ howned)
  refine Safe.perform fun w₃ hrely₃ _ => ⟨trivial, fun _ o user w₄ he => ?_⟩
  obtain ⟨huser, rfl⟩ := Prod.mk.inj (Option.some.inj (exec_of_ordinary he))
  have howned₃ : Owned w₃ job := hrely₃ _ howned₂
  unfold Owned at howned₃
  rw [huser] at howned₃
  cases user with
  | none => cases howned₃
  | some user =>
    have hcan : canTransition job.status .initializing = true := by rw [hstatus]; rfl
    refine safeTick_of_raisesPlain (.ofExcept (plain_transition now hcan) fun moved hmoved => ?_) _
    have hmoved := (transition_eq_ok hmoved).2
    refine .perform fun _ _ => .perform fun _ _ => JobPoller.raisesPlain_launch hlib ?_
    rw [hmoved]

theorem safeTick_tick (hlib : D.lib.Ordinary) (w : World) :
    SafeTick D (JobPoller.tick D.lib D.settings) w := by
  refine safeTick_bind CancelWatcher.raisesPlain_processCancellations (fun _ w _ => ?_) w
  refine safeTick_bind (.last _) (fun active w _ => ?_) w
  split
  · refine Safe.perform fun w₁ _ hi => ⟨trivial, fun _ o jobs w₂ he => ?_⟩
    obtain ⟨rfl, rfl⟩ := Prod.mk.inj (Option.some.inj (exec_of_ordinary he))
    cases hjobs : w₁.jobs.listByStatuses [.queued] with
    | nil => exact safeTick_of_raisesPlain (.pure _) _
    | cons job jobs =>
      have hlisted : job ∈ w₁.jobs.listByStatuses [.queued] := by
        rw [hjobs]
        exact List.mem_cons_self
      obtain ⟨hmem, hstatus⟩ := JobTable.mem_listByStatuses.mp hlisted
      exact safeTick_startJob hlib (List.mem_singleton.mp hstatus) (hi job hmem)
  · exact safeTick_of_raisesPlain (.pure _) w

end

/-- Every operation of the system, in the middle of what the others do. -/
theorem code_plain (hlib : D.lib.Ordinary) (op : Op) (w : World) :
    Safe (ordinarySystem D).exec (protocol.outline D) op (fun r _ => Plain r) (op.code D) w := by
  have hsafe : Safe (ordinarySystem D).exec (protocol.outline D) op (protocol.post op)
      (op.code D) w := Safe.restrict (valid.safe op trivial)
  have hplain : Safe (ordinarySystem D).exec (protocol.outline D).unconditional op
      (fun r _ => Plain r) (op.code D) w := by
    by_cases hop : op = .pollerTick
    · subst hop
      refine Safe.bind (preorders (D := D)) (Safe.mono (safeTick_tick hlib w) fun r w' _ hr => ?_)
      cases r with
      | ok job => exact safeTick_of_raisesPlain (.pure ()) w'
      | error e => exact plain_error (hr e rfl)
    · exact Safe.of_yields (fun _ _ _ _ _ => admits_of_exec) (raisesPlain_code hlib hop)
  exact Safe.mono (hsafe.and_unconditional hplain) fun r w' _ h => h.2

theorem outline_sound (hlib : D.lib.Ordinary) {permit : SysLabel → Prop} :
    (protocol.outline D).Sound (ordinarySystem D) permit fun _ r _ => Plain r where
  toSteps := sound.steps.restrict
  code op _ w _ := code_plain hlib op w

end Guards

open Guards

/-- In every interleaving of single calls, with crashes of the worker anywhere, from every state
without jobs: no operation ever raises the exception of the state machine or that of a missing
owner. -/
theorem guards_never_fire (D : Deployment) (hlib : D.lib.Ordinary) {w : World}
    {ls : List SysLabel} {rs : List SysRecord} {c : SysConf} (hw : w.jobs = Table.empty)
    (hl : ∀ l ∈ ls, Interleaved l) (hordinary : ∀ l ∈ ls, l.Settles Choice.Ordinary)
    (hr : D.system.run (.initial w) ls = some (rs, c)) :
    ∀ op p, (op, p) ∈ c.pool ∨ c.thread = some (op, p) →
      (∀ source target, p ≠ .raise (.invalidTransition source target)) ∧
        ∀ userId, p ≠ .raise (.userMissing userId) := by
  have hi : protocol.inv w := by
    intro job hjob
    rw [hw] at hjob
    exact absurd hjob (Table.not_mem_empty job)
  rw [← Machine.run_restrict hordinary] at hr
  have hrun := (outline_sound hlib).run (.initial hi) hl hr fun _ _ _ => trivial
  have hthread := (outline_sound hlib).concluded_run (fun op r s (hr : Plain r) => hr) (.initial hi)
    hl hr (fun _ _ _ => trivial) fun op p r hnone => by cases hnone
  have hplain : ∀ op p, (op, p) ∈ c.pool ∨ c.thread = some (op, p) → ∀ e, p = .raise e →
      e.guard = false := by
    rintro op p (hmem | hmem) e rfl
    · have hsafe := (hrun.2.pool op _ hmem).2.2
      exact Safe.outcome_of_finished valid.preorders hrun.2.inv hsafe e rfl
    · exact hthread op _ _ hmem rfl e rfl
  intro op p hmem
  refine ⟨fun source target heq => ?_, fun userId heq => ?_⟩
  · have := hplain op p hmem _ heq
    cases this
  · have := hplain op p hmem _ heq
    cases this

namespace Guards

theorem ordinary_sample : Deployment.sample.lib.Ordinary where
  zipInfolist _ e he := by
    rw [← Except.error.inj he]
    rfl
  zipRead _ _ e he := by
    rw [← Except.error.inj he]
    rfl
  jsonLoads _ e he := by
    rw [← Except.error.inj he]
    rfl

/-- A job is started while its cancellation is requested, and the worker crashes. -/
def startedAndCancelled : List SysLabel :=
  Run.create "j" ++ .start .pollerTick :: List.replicate 8 (.work {}) ++
    .spawn (.requestCancel "user" "j") :: List.replicate 3 (.serve 1 {}) ++
    [.crash, .start .completionTick, .work {}]

end Guards

/-- In such a run nobody raises either exception. -/
theorem guards_never_fire_crash : ∃ rs c,
    Deployment.sample.system.run (.initial .sample) startedAndCancelled = some (rs, c) ∧
    ∀ op p, (op, p) ∈ c.pool ∨ c.thread = some (op, p) →
      (∀ source target, p ≠ .raise (.invalidTransition source target)) ∧
        ∀ userId, p ≠ .raise (.userMissing userId) := by
  have hrun : (Deployment.sample.system.run (.initial .sample) startedAndCancelled).isSome = true := by
    rfl
  obtain ⟨⟨rs, c⟩, hr⟩ := Option.isSome_iff_exists.mp hrun
  have hordinary : ∀ l ∈ startedAndCancelled, l.Settles Choice.Ordinary := by
    simp [startedAndCancelled, Run.create, Label.Settles, Choice.Ordinary]
  exact ⟨rs, c, hr, guards_never_fire .sample ordinary_sample rfl (by decide) hordinary hr⟩

end TrainVla
