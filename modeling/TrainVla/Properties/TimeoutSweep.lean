import TrainVla.System.TimeoutRun

/-! The timeout sweep fails exactly the stale jobs. -/
namespace TrainVla

open Interaction Store TimeoutService

/-- The last heartbeat is more than five minutes before now for a job that is initializing, and
more than two minutes for a job that trains. -/
def Stale (now : ℤ) (job : Job) : Prop :=
  ∃ heartbeat, job.heartbeatAt = some heartbeat ∧
    (job.status = .initializing ∧ minutes 5 < now - heartbeat ∨
      job.status = .training ∧ minutes 2 < now - heartbeat)

/-- What the sweep returns and what it leaves behind. -/
structure SweptExactly (now : ℤ) (w w' : World) (failed : List Job) : Prop where
  returned : ∃ stale : List Job, failed = stale.map (expired now) ∧
    (∀ job, job ∈ stale ↔ job ∈ w.jobs ∧ Stale now job) ∧
    (stale.map Job.id).Nodup ∧ stale.Pairwise fun a b => a.createdAt ≤ b.createdAt
  fails : ∀ job ∈ w.jobs, Stale now job → w'.jobs.get? job.id = some (expired now job)
  keeps : ∀ jobId, (∀ job ∈ w.jobs, Stale now job → job.id ≠ jobId) →
    w'.jobs.get? jobId = w.jobs.get? jobId
  frame : ∃ log, w' = { w with clock := now, jobs := w'.jobs, log := log }

namespace TimeoutSweep

theorem isTimedOut_iff_stale {now : ℤ} {job : Job} :
    isTimedOut job.status job.heartbeatAt now = true ↔ Stale now job := by
  constructor
  · intro h
    cases hheartbeat : job.heartbeatAt with
    | none =>
      rw [hheartbeat] at h
      unfold isTimedOut at h
      simp at h
    | some heartbeat =>
      rw [hheartbeat] at h
      refine ⟨heartbeat, hheartbeat, ?_⟩
      rcases status_of_isTimedOut h with hstatus | hstatus
      · rw [hstatus] at h
        exact .inl ⟨hstatus, of_decide_eq_true h⟩
      · rw [hstatus] at h
        exact .inr ⟨hstatus, of_decide_eq_true h⟩
  · rintro ⟨heartbeat, hheartbeat, ⟨hstatus, hlate⟩ | ⟨hstatus, hlate⟩⟩
    · rw [hheartbeat, hstatus]
      exact decide_eq_true hlate
    · rw [hheartbeat, hstatus]
      exact decide_eq_true hlate

theorem stale_mono {now later : ℤ} (hle : now ≤ later) {job : Job} (h : Stale now job) :
    Stale later job := by
  obtain ⟨heartbeat, hheartbeat, h⟩ := h
  refine ⟨heartbeat, hheartbeat, ?_⟩
  rcases h with ⟨hstatus, hlate⟩ | ⟨hstatus, hlate⟩
  · exact .inl ⟨hstatus, by omega⟩
  · exact .inr ⟨hstatus, by omega⟩

theorem not_stale_expired (now later : ℤ) (job : Job) : ¬ Stale later (expired now job) := by
  rintro ⟨_, -, ⟨hstatus, -⟩ | ⟨hstatus, -⟩⟩ <;> cases hstatus

theorem mem_swept_iff_stale {now : ℤ} {jobs : JobTable} {job : Job} :
    job ∈ swept now jobs ↔ job ∈ jobs ∧ Stale now job := by
  rw [mem_swept, isTimedOut_iff_stale]

/-- The listing is sorted by the time of creation, and what is filtered from it stays so. -/
theorem swept_sorted (now : ℤ) (jobs : JobTable) :
    (swept now jobs).Pairwise fun a b => a.createdAt ≤ b.createdAt := by
  have hsorted := List.pairwise_insertionSort (fun a b : Job => a.createdAt ≤ b.createdAt)
    (jobs.rows.filter fun job => job.status ∈ monitoredStatuses)
  exact hsorted.sublist List.filter_sublist

theorem sweptExactly (now : ℤ) (w : World) (log : List Entry) :
    SweptExactly now w
      { w with
        clock := now
        jobs := w.jobs.putAll ((swept now w.jobs).map (expired now))
        log := log } ((swept now w.jobs).map (expired now)) := by
  constructor
  case returned =>
    exact ⟨swept now w.jobs, rfl, fun job => mem_swept_iff_stale, nodup_swept now w.jobs,
      swept_sorted now w.jobs⟩
  case fails =>
    intro job hjob h
    exact get?_expired hjob (isTimedOut_iff_stale.mpr h)
  case keeps =>
    intro jobId h
    apply get?_unexpired
    intro job hjob htimedOut
    exact h job hjob (isTimedOut_iff_stale.mp htimedOut)
  case frame => exact ⟨log, rfl⟩

/-- What is stored after a sweep is either failed or was not stale. -/
theorem swept_eq_nil {now : ℤ} {w w' : World} {failed : List Job}
    (h : SweptExactly now w w' failed) : swept now w'.jobs = [] := by
  apply List.eq_nil_iff_forall_not_mem.mpr
  intro job hjob
  obtain ⟨hmem, hstale⟩ := mem_swept_iff_stale.mp hjob
  have hget : w'.jobs.get? job.id = some job := Table.get?_of_mem hmem
  by_cases hold : ∃ old ∈ w.jobs, Stale now old ∧ old.id = job.id
  · obtain ⟨old, hmem', hstale', hid⟩ := hold
    rw [← hid, h.fails old hmem' hstale'] at hget
    rw [← Option.some.inj hget] at hstale
    exact not_stale_expired now now old hstale
  · have hkept : w'.jobs.get? job.id = w.jobs.get? job.id := by
      apply h.keeps
      intro old hmem' hstale' hid
      exact hold ⟨old, hmem', hstale', hid⟩
    rw [hkept] at hget
    exact hold ⟨job, Table.mem_of_get? hget, hstale, rfl⟩

end TimeoutSweep

open TimeoutSweep

/-- Whatever is stored and whatever the time: a sweep fails exactly the stale jobs, a second one
at the same time changes nothing, and a later one would fail these jobs too. -/
theorem timeout_sweep_exact (w : World) (xs : ℕ → Choice) :
    ∃ failed w', eval (World.exec false) xs w checkAndFailTimedOutJobs = some (.ok failed, w') ∧
      SweptExactly (xs 0).time w w' failed ∧
      (∀ ys : ℕ → Choice, (ys 0).time = (xs 0).time →
        eval (World.exec false) ys w' checkAndFailTimedOutJobs = some (.ok [], w')) ∧
      ∀ ys : ℕ → Choice, (xs 0).time ≤ (ys 0).time →
        ∃ later w'', eval (World.exec false) ys w checkAndFailTimedOutJobs =
            some (.ok later, w'') ∧
          SweptExactly (ys 0).time w w'' later ∧
          ∀ job ∈ failed, ∃ job' ∈ later, job'.id = job.id := by
  obtain ⟨t, log, zs, hrun⟩ := evalsTo_sweep xs w
  have hswept := sweptExactly (xs 0).time w log
  refine ⟨_, _, hrun.eval, hswept, ?_, ?_⟩
  · intro ys htime
    have hnil := swept_eq_nil hswept
    rw [← htime] at hnil ⊢
    obtain ⟨t', zs', hagain⟩ := evalsTo_sweep_of_nil ys _ hnil
    exact hagain.eval
  · intro ys hle
    obtain ⟨t', log', zs', hlater⟩ := evalsTo_sweep ys w
    refine ⟨_, _, hlater.eval, sweptExactly (ys 0).time w log', ?_⟩
    intro job hjob
    obtain ⟨old, hold, rfl⟩ := List.mem_map.mp hjob
    obtain ⟨hmem, hstale⟩ := mem_swept_iff_stale.mp hold
    have hstill : old ∈ swept (ys 0).time w.jobs :=
      mem_swept_iff_stale.mpr ⟨hmem, stale_mono hle hstale⟩
    exact ⟨expired (ys 0).time old, List.mem_map_of_mem hstill, rfl⟩

end TrainVla
