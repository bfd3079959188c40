import TrainVla.System.CancellationPass
import TrainVla.System.Operations
import Mathlib.Data.List.Pairwise

/-! A pass over the requested cancellations goes through unless a container is in its way. -/
namespace TrainVla

open Interaction Store CancelWatcher

structure Stopped (w w' : World) : Prop where
  cancelled : ∀ job, Pending w job →
    ∃ new, w'.jobs.get? job.id = some new ∧ new.status = .cancelled
  halted : ∀ job, Pending w job → ∀ id, job.container? = some id →
    w'.containers.stateOf id ≠ .running
  other_jobs : ∀ jobId, (∀ job, Pending w job → job.id ≠ jobId) →
    w'.jobs.get? jobId = w.jobs.get? jobId
  other_containers : ∀ id, (∀ job, Pending w job → job.container? ≠ some id) →
    w'.containers.get? id = w.containers.get? id

def GoesThrough (D : Deployment) (xs : ℕ → Choice) (w : World) : Prop :=
  ∃ cancelledJobs w', eval (World.exec D.steady) xs w processCancellations =
    some (.ok cancelledJobs, w') ∧ Stopped w w'

/-- The recorded containers are in no state that `kill` raises for, the second time it is
called for the same container included, and none of them runs for a queued job alone. -/
structure Stoppable (w : World) : Prop where
  not_exited : ∀ job, Pending w job → ∀ id, stopped? job = some id →
    ∀ code, w.containers.stateOf id ≠ .exited code
  once : ∀ a b, Pending w a → Pending w b → ∀ id, stopped? a = some id → stopped? b = some id →
    w.containers.stateOf id = .running → a = b
  started : ∀ a, Pending w a → ∀ id, a.container? = some id →
    w.containers.stateOf id = .running → ∃ b, Pending w b ∧ stopped? b = some id

namespace StoppedJobs

variable {D : Deployment} {w : World} {xs : ℕ → Choice}

theorem killEach_iff : (∃ kept, w.containers.killEach (stoppedIds (candidates w)) = .ok kept) ↔
    (∀ job, Pending w job → ∀ id, stopped? job = some id →
      ∀ code, w.containers.stateOf id ≠ .exited code) ∧
    (∀ a b, Pending w a → Pending w b → ∀ id, stopped? a = some id → stopped? b = some id →
      w.containers.stateOf id = .running → a = b) := by
  rw [Containers.killEach_ok_iff]
  have hnodup : (requested (candidates w)).Nodup := (requested_nodup w).of_map
  constructor
  · rintro ⟨hexited, honce⟩
    constructor
    · intro job hjob id hid
      exact hexited id (mem_stoppedIds.mpr ⟨job, hjob, hid⟩)
    · intro a b ha hb id hida hidb hrunning
      by_contra hne
      unfold stoppedIds at honce
      rw [List.pairwise_filterMap] at honce
      have hsymm : Std.Symm fun a b : Job => ∀ i, stopped? a = some i → ∀ j, stopped? b = some j →
          i = j → w.containers.stateOf i ≠ .running := by
        constructor
        intro a b h j hj i hi heq
        rw [heq]
        exact h i hi j hj heq.symm
      have hboth := honce.forall (mem_requested.mpr ha) (mem_requested.mpr hb) hne
      exact hboth id hida id hidb rfl hrunning
  · rintro ⟨hexited, honce⟩
    constructor
    · intro id hmem
      obtain ⟨job, hjob, hid⟩ := mem_stoppedIds.mp hmem
      exact hexited job hjob id hid
    · unfold stoppedIds
      rw [List.pairwise_filterMap]
      apply hnodup.pairwise_of_forall_ne
      intro a ha b hb hne i hi j hj heq hrunning
      subst heq
      exact hne (honce a b (mem_requested.mp ha) (mem_requested.mp hb) i hi hj hrunning)

/-- Whatever container is left running is none that was killed. -/
theorem stateOf_kept {kept : Containers} {id : String}
    (hkill : w.containers.killEach (stoppedIds (candidates w)) = .ok kept) :
    kept.stateOf id = .running ↔
      w.containers.stateOf id = .running ∧ id ∉ stoppedIds (candidates w) := by
  unfold Containers.stateOf
  rw [Containers.get?_killEach hkill]
  cases w.containers.get? id with
  | none => simp
  | some c =>
    by_cases hid : id ∈ stoppedIds (candidates w)
    · by_cases hstate : c.state = .running <;> simp [hid, hstate]
    · simp [hid]

theorem stopped_of_kept {kept : Containers} {time : ℤ} {dirs : Table JobDir String JobDir.jobId}
    {log : List Entry} (hkill : w.containers.killEach (stoppedIds (candidates w)) = .ok kept)
    (hstarted : ∀ a, Pending w a → ∀ id, a.container? = some id →
      w.containers.stateOf id = .running → ∃ b, Pending w b ∧ stopped? b = some id) :
    Stopped w (afterPass { w with clock := time } time (candidates w) kept dirs log) := by
  constructor
  case cancelled =>
    intro job hjob
    exact ⟨_, get?_afterPass_of_pending hjob, rfl⟩
  case halted =>
    intro job hjob id hid hrunning
    obtain ⟨hbefore, hnot⟩ := (stateOf_kept hkill).mp hrunning
    obtain ⟨b, hb, hstop⟩ := hstarted job hjob id hid hbefore
    exact hnot (mem_stoppedIds.mpr ⟨b, hb, hstop⟩)
  case other_jobs =>
    intro jobId hother
    exact get?_afterPass_of_not_pending hother
  case other_containers =>
    intro id hother
    exact get?_kept_of_other hkill hother

end StoppedJobs

theorem cancellations_go_through_iff (D : Deployment) {xs : ℕ → Choice} {w : World}
    (hclock : D.steady = true → ClockRuns w xs) : GoesThrough D xs w ↔ Stoppable w := by
  unfold GoesThrough
  rw [World.eval_steady hclock]
  constructor
  · rintro ⟨cancelledJobs, w', heval, hstopped⟩
    cases hkill : w.containers.killEach (stoppedIds (candidates w)) with
    | error e =>
      obtain ⟨t, w₁, ys, hends⟩ := evalsTo_processCancellations_error xs hkill
      rw [hends.eval] at heval
      cases heval
    | ok kept =>
      obtain ⟨t, dirs, log, ys, -, -, hends⟩ := evalsTo_processCancellations xs hkill
      rw [hends.eval] at heval
      obtain ⟨-, rfl⟩ := Prod.mk.inj (Option.some.inj heval)
      obtain ⟨hexited, honce⟩ := StoppedJobs.killEach_iff.mp ⟨kept, hkill⟩
      refine ⟨hexited, honce, fun a ha id hid hrunning => ?_⟩
      have hhalted := hstopped.halted a ha id hid
      by_contra hnone
      apply hhalted
      apply (StoppedJobs.stateOf_kept hkill).mpr
      exact ⟨hrunning, fun hmem => hnone (mem_stoppedIds.mp hmem)⟩
  · intro h
    obtain ⟨kept, hkill⟩ := StoppedJobs.killEach_iff.mpr ⟨h.not_exited, h.once⟩
    obtain ⟨t, dirs, log, ys, -, -, hends⟩ := evalsTo_processCancellations xs hkill
    exact ⟨_, _, hends.eval, StoppedJobs.stopped_of_kept hkill h.started⟩

namespace StoppedJobs

/-- Somebody asked to cancel the one job there is, whose container is in this state. -/
def asked (state : ContainerState) : World :=
  { World.sample with
    jobs := Table.empty.put
      { id := "j", userId := "user", policy := .act, sourceType := .hfHub, sourceRef := "org/dataset",
        trainingSteps := 100, status := .training, containerId := some "c", cancelRequested := true,
        createdAt := 0, updatedAt := 0 }
    containers := Table.empty.put
      { id := "c", state := state,
        spec := { image := "", name := "", command := [], volumes := Table.empty, environment := [],
                  labels := [(lerobotJobIdLabel, "j")] } } }

end StoppedJobs

/-- The training ended before the worker came to cancel it. -/
theorem cancellations_go_through_fails : ¬ ∀ (D : Deployment) (xs : ℕ → Choice) (w : World),
    (D.steady = true → ClockRuns w xs) → GoesThrough D xs w := by
  intro h
  have hraises : (eval (World.exec Deployment.sample.steady) (fun _ => {})
      (StoppedJobs.asked (.exited 0)) processCancellations).any
        (fun out => !out.1.toBool) = true := by rfl
  obtain ⟨cancelledJobs, w', heval, -⟩ :=
    h .sample (fun _ => {}) (StoppedJobs.asked (.exited 0)) fun _ => ⟨le_refl 0, fun _ => le_refl 0⟩
  rw [heval] at hraises
  cases hraises

theorem cancellations_go_through_iff_running :
    GoesThrough .sample (fun _ => {}) (StoppedJobs.asked .running) ↔
      Stoppable (StoppedJobs.asked .running) :=
  cancellations_go_through_iff .sample fun _ => ⟨le_refl 0, fun _ => le_refl 0⟩

end TrainVla
