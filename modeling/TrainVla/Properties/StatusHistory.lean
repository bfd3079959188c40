import TrainVla.System.JobProtocol
import TrainVla.System.JobWrites

/-! The stored statuses move along the state machine exactly as long as no write is computed
from a document whose status is out of date. -/
namespace TrainVla

open Interaction Store

namespace StatusHistory

/-- From one stored document to the next. -/
def Step (old new : Job) : Prop :=
  (new.status = old.status ∨ canTransition old.status new.status = true) ∧
    (old.status.Terminal → new = old)

/-- Every document that is stored stays, or moves along the state machine. -/
def Follows (before after : JobTable) : Prop := Table.Evolves Step before after

/-- A write that does not come too late: the stored job is still active, and the write was
computed from its present status (the sweep may fail a job from an earlier one). A write that
changes nothing is never too late. -/
def Timely (op : Op) (jobs : JobTable) : Call → Prop
  | .jobsUpdate seen new => ∀ stored, jobs.get? new.id = some stored → new = stored ∨
      stored.status.Active ∧ (op = .timeoutSweep ∨ seen.status = stored.status)
  | _ => True

/-- How far a stored status may have moved away from the one that an operation has seen.
The worker is the only one who moves a job on, so to it a job can only have ended. -/
def Drift (op : Op) (seen stored : JobStatus) : Prop :=
  if op.threaded then stored = seen ∨ stored.Terminal else seen.Reaches stored

theorem Drift.rfl (op : Op) (s : JobStatus) : Drift op s s := by
  unfold Drift
  split
  · exact .inl (Eq.refl s)
  · exact .rfl

theorem Drift.trans {op : Op} {s t u : JobStatus} (h₁ : Drift op s t) (h₂ : Drift op t u)
    (hfinal : t.Terminal → u = t) : Drift op s u := by
  unfold Drift at *
  split at h₁
  · rename_i hop
    rw [if_pos hop] at h₂ ⊢
    rcases h₁ with heq | ht
    · rwa [heq] at h₂
    · exact .inr (hfinal ht ▸ ht)
  · rename_i hop
    rw [if_neg hop] at h₂ ⊢
    exact .trans h₁ h₂

def Drifted (op : Op) (seen stored : Job) : Prop := Drift op seen.status stored.status

/-- What others may do to a document. A terminal one stays for good. -/
def Moves (op : Op) (old new : Job) : Prop :=
  Drift op old.status new.status ∧ (old.status.Terminal → new = old)

def protocol : JobProtocol where
  inv _ := True
  rely op := Table.Evolves (Moves op)
  cond := Timely
  knows op _ seen jobs := Table.Copy (Drifted op) seen jobs

theorem Step.rfl (job : Job) : Step job job := ⟨.inl (Eq.refl _), fun _ => Eq.refl job⟩

theorem Drifted.rfl (op : Op) (job : Job) : Drifted op job job := Drift.rfl op job.status

theorem Drifted.moves (op : Op) (a b c : Job) (h₁ : Drifted op a b) (h₂ : Moves op b c) :
    Drifted op a c :=
  Drift.trans h₁ h₂.1 fun ht => by rw [h₂.2 ht]

theorem Moves.rfl (op : Op) (job : Job) : Moves op job job := ⟨.rfl op _, fun _ => Eq.refl job⟩

theorem Moves.trans (op : Op) (a b c : Job) (h₁ : Moves op a b) (h₂ : Moves op b c) :
    Moves op a c := by
  refine ⟨h₁.1.trans h₂.1 fun ht => by rw [h₂.2 ht], fun ht => ?_⟩
  have hb := h₁.2 ht
  rw [h₂.2 (hb ▸ ht), hb]

/-- Within the drift, being timely and following the state machine are the same. -/
theorem timely_iff {op : Op} {st st' : Stage} {seen new stored : Job} {now : ℤ}
    (hw : JobWrite op st seen now st' new) (hdrift : Drift op seen.status stored.status) :
    (new = stored ∨ stored.status.Active ∧
      (op = .timeoutSweep ∨ seen.status = stored.status)) ↔ Step stored new := by
  constructor
  · rintro (rfl | ⟨hactive, hcase⟩)
    · exact .rfl new
    have hnot : ¬ stored.status.Terminal := by
      rw [JobStatus.terminal_iff_not_active]
      exact not_not_intro hactive
    refine ⟨?_, fun ht => absurd ht hnot⟩
    unfold Drift at hdrift
    split at hdrift
    · -- the worker has seen the present status
      rcases hdrift with heq | ht
      · rw [heq]
        exact hw.status_step
      · exact absurd ht hnot
    · rename_i hop
      rcases hw.status_of_request (by simpa using hop) with
        ⟨hsweep, hsame, -⟩ | ⟨-, hfailed, hseen⟩
      · rw [hsame]
        rcases hcase with h | heq
        · exact absurd h hsweep
        · exact .inl heq
      · rw [hfailed]
        exact .inr (JobStatus.failed_of_reached hseen hdrift hactive)
  · intro hstep
    rcases stored.status.active_or_terminal with hactive | hterminal
    · refine .inr ⟨hactive, ?_⟩
      have hnot : ¬ stored.status.Terminal := by
        rw [JobStatus.terminal_iff_not_active]
        exact not_not_intro hactive
      unfold Drift at hdrift
      split at hdrift
      · rcases hdrift with heq | ht
        · exact .inr heq.symm
        · exact absurd ht hnot
      · rename_i hop
        rcases hw.status_of_request (by simpa using hop) with ⟨-, hsame, -⟩ | ⟨hsweep, -⟩
        · -- a request that writes back an old status would move the job backwards
          right
          rcases hstep.1 with heq | hcan
          · rw [← hsame, heq]
          · rw [hsame] at hcan
            rcases hdrift with heq | hlt
            · exact heq
            · rw [JobStatus.not_canTransition_of_rank_lt hlt] at hcan
              cases hcan
        · exact .inl hsweep
    · exact .inl (hstep.2 hterminal)

theorem Moves.of_step {op : Op} (hop : op.threaded = false) (a b : Job) (h : Step a b) :
    Moves op a b := by
  refine ⟨?_, h.2⟩
  unfold Drift
  rw [hop]
  rcases h.1 with heq | hcan
  · exact .inl heq.symm
  · exact JobStatus.reaches_of_canTransition hcan

theorem step_of_timely {op : Op} {st st' : Stage} {seen new stored : Job} {now : ℤ}
    {jobs : JobTable} (hw : JobWrite op st seen now st' new) (hk : protocol.knows op st seen jobs)
    (htimely : Timely op jobs (.jobsUpdate seen new)) (hstored : jobs.get? new.id = some stored) :
    Step stored new := by
  have hdrift : Drifted op seen stored := Table.Copy.stored hk hw.id_eq hstored
  exact (timely_iff hw hdrift).mp (htimely stored hstored)

/-- A write of the backend, as the worker sees it. -/
theorem moves_of_request {op op' : Op} {st st' : Stage} {seen new stored : Job} {now : ℤ}
    {jobs : JobTable} (hw : JobWrite op st seen now st' new) (hop : op.threaded = false)
    (htimely : Timely op jobs (.jobsUpdate seen new)) (hstep : Step stored new)
    (hstored : jobs.get? new.id = some stored) (hop' : op'.threaded = true) :
    Moves op' stored new := by
  refine ⟨?_, hstep.2⟩
  unfold Drift
  rw [if_pos hop']
  rcases htimely stored hstored with rfl | ⟨hactive, hcase⟩
  · exact .inl rfl
  rcases hw.status_of_request hop with ⟨hsweep, hsame, -⟩ | ⟨-, hfailed, -⟩
  · rcases hcase with h | heq
    · exact absurd h hsweep
    · exact .inl (hsame.trans heq)
  · exact .inr (by rw [hfailed]; decide)

theorem sound : protocol.Sound where
  refl op _ := .rfl (.rfl op)
  trans op _ _ _ := .trans (.trans op)
  stable op _ _ _ _ hrely _ hk := Table.Copy.evolve hk hrely (.moves op)
  found op _ _ _ _ _ hmem := Table.Copy.of_mem (.rfl op) hmem
  promote _ _ _ _ _ _ hk := hk
  wrote op st seen now st' new jobs _ hw hk hc := by
    refine ⟨trivial, Table.Copy.put_self (.rfl op) jobs new,
      fun _ hjob hne => hjob.put_of_ne hne, fun op' hothers => ?_⟩
    refine Table.evolves_put (.rfl op') fun stored hstored => ?_
    have hstep := step_of_timely hw hk hc hstored
    by_cases hop' : op'.threaded = true
    · have hop : op.threaded = false := by
        by_contra h
        have := hothers (by simpa using h)
        rw [hop'] at this
        cases this
      exact moves_of_request hw hop hc hstep hstored hop'
    · exact .of_step (by simpa using hop') stored new hstep
  created _ _ _ _ _ _ _ _ _ hfresh _ :=
    ⟨trivial, fun op' => Table.evolves_put_fresh (.rfl op') hfresh⟩

/-- A call that is known to the protocol follows the state machine if and only if it is timely. -/
theorem follows_iff_timely {D : Deployment} {r : SysRecord}
    (hr : r.Known D.system (protocol.toProtocol.outline D)) :
    Follows r.before.jobs r.after.jobs ↔ Timely r.op r.before.jobs r.call := by
  obtain ⟨-, hpre, o, a, he⟩ := hr
  obtain ⟨op, before, call, after⟩ := r
  have he : World.exec D.steady o before call = some (a, after) := he
  have hframe : call.writesJobs = false → Follows before.jobs after.jobs := by
    intro h
    rw [(World.exec_frame he).jobs h]
    exact .rfl .rfl
  cases call with
  | jobsUpdate seen new =>
    obtain rfl := World.exec_jobsUpdate he
    obtain ⟨st, now, st', hw, hk, -⟩ := hpre
    constructor
    · intro hfollows stored hstored
      have hdrift : Drifted op seen stored := Table.Copy.stored hk hw.id_eq hstored
      exact (timely_iff hw hdrift).mpr (hfollows.of_put hstored)
    · intro htimely
      exact Table.evolves_put .rfl fun stored hstored => step_of_timely hw hk htimely hstored
  | jobsCreate job =>
    obtain ⟨rfl, hfresh⟩ := World.exec_jobsCreate he
    exact ⟨fun _ => trivial, fun _ => Table.evolves_put_fresh .rfl hfresh⟩
  | _ => exact ⟨fun _ => trivial, fun _ => hframe rfl⟩

end StatusHistory

open StatusHistory

/-- In every interleaving of single calls, all rewrites follow the state machine and leave
terminal documents alone if and only if all of them are timely. -/
theorem statuses_follow_state_machine (D : Deployment) {w : World} {ls : List SysLabel}
    {rs : List SysRecord} {c : SysConf} (hl : ∀ l ∈ ls, Interleaved l)
    (hr : D.system.run (.initial w) ls = some (rs, c)) :
    (∀ r ∈ rs, Follows r.before.jobs r.after.jobs) ↔
      ∀ r ∈ rs, Timely r.op r.before.jobs r.call := by
  constructor
  · intro hfollows
    have hknown := StatusHistory.sound.run trivial hl hr fun r hmem hk =>
      (follows_iff_timely hk).mp (hfollows r hmem)
    exact fun r hmem => (follows_iff_timely (hknown.1 r hmem)).mp (hfollows r hmem)
  · intro htimely
    have hknown := StatusHistory.sound.run trivial hl hr fun r hmem _ => htimely r hmem
    exact fun r hmem => (follows_iff_timely (hknown.1 r hmem)).mpr (htimely r hmem)

/-- A queued job is created and started, while a request to cancel it holds the document from
before the start. -/
def staleRequest : List SysLabel :=
  Run.create "j" ++ [.spawn (.requestCancel "user" "j"), .serve 1 {}, .serve 1 {}] ++
    .start .pollerTick :: List.replicate 7 (.work {}) ++ [.serve 1 {}]

theorem interleaved_staleRequest : ∀ l ∈ staleRequest, Interleaved l := by decide

/-- The request puts the running job back into the queue. -/
theorem statuses_follow_state_machine_fails : ¬ ∀ (ls : List SysLabel) (rs : List SysRecord)
    (c : SysConf), (∀ l ∈ ls, Interleaved l) →
    Deployment.sample.system.run (.initial .sample) ls = some (rs, c) →
    ∀ r ∈ rs, Follows r.before.jobs r.after.jobs := by
  intro h
  have hrun : (Deployment.sample.system.run (.initial .sample) staleRequest).any (fun out =>
      out.1.any fun r => decide ((r.before.jobs.get? "j").map Job.status = some .initializing ∧
        (r.after.jobs.get? "j").map Job.status = some .queued)) = true := by rfl
  obtain ⟨⟨rs, c⟩, hr, hbad⟩ := (Option.any_eq_true _ _).mp hrun
  obtain ⟨r, hmem, hr'⟩ := List.any_eq_true.mp hbad
  obtain ⟨hbefore, hafter⟩ := of_decide_eq_true hr'
  obtain ⟨old, hold, hstatus⟩ := Option.map_eq_some_iff.mp hbefore
  obtain ⟨new, hnew, hstep, -⟩ := h staleRequest rs c interleaved_staleRequest hr r hmem "j" old hold
  rw [hnew, Option.map_some, Option.some.injEq] at hafter
  rw [hstatus, hafter] at hstep
  revert hstep
  decide

theorem statuses_follow_state_machine_stale : ∃ rs c,
    Deployment.sample.system.run (.initial .sample) staleRequest = some (rs, c) ∧
      ((∀ r ∈ rs, Follows r.before.jobs r.after.jobs) ↔
        ∀ r ∈ rs, Timely r.op r.before.jobs r.call) := by
  have hrun : (Deployment.sample.system.run (.initial .sample) staleRequest).isSome = true := by rfl
  obtain ⟨⟨rs, c⟩, hr⟩ := Option.isSome_iff_exists.mp hrun
  exact ⟨rs, c, hr, statuses_follow_state_machine .sample interleaved_staleRequest hr⟩

end TrainVla
