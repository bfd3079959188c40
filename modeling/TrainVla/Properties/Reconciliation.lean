import TrainVla.Worker.OrphanReconciler
import TrainVla.System.Operations
import TrainVla.Interaction.Evaluation
import Mathlib.Data.List.Dedup

/-! After a restart the containers that run are those of the jobs in progress. -/
namespace TrainVla

open Interaction Store OrphanReconciler

/-- A container of this service runs under this identifier. -/
def Runs (w : World) (containerId : String) : Prop :=
  ∃ c ∈ w.containers, c.id = containerId ∧ c.state = .running ∧ c.spec.jobId?.isSome = true

/-- Some job in progress has its container under this identifier. -/
def Tracked (w : World) (containerId : String) : Prop :=
  ∃ job ∈ w.jobs, job.status ∈ monitoredStatuses ∧ job.containerId = some containerId

structure Reconciled (w w' : World) (result : ReconciliationResult) : Prop where
  runs : ∀ id, Runs w' id ↔ Runs w id ∧ Tracked w id
  killed : ∀ id, id ∈ result.killedOrphanContainerIds ↔ Runs w id ∧ ¬ Tracked w id
  killed_once : result.killedOrphanContainerIds.Nodup
  resumed : ∀ job, job ∈ result.resumedJobs ↔ job ∈ w.jobs ∧ job.status ∈ monitoredStatuses ∧
    ∃ id, job.containerId = some id ∧ Runs w id
  resumed_once : result.resumedJobs.Nodup
  oldest_first : result.resumedJobs.Pairwise fun a b => a.createdAt ≤ b.createdAt
  still_runs : ∀ job ∈ result.resumedJobs, ∃ id, job.containerId = some id ∧ Runs w' id
  foreign : ∀ c : Container, c.spec.jobId? = none → (c ∈ w'.containers ↔ c ∈ w.containers)
  unchanged : w' = { w with containers := w'.containers }
  exclusive : (∀ a ∈ w.jobs, ∀ b ∈ w.jobs, a.status ∈ monitoredStatuses →
      b.status ∈ monitoredStatuses → a = b) → ∀ id id', Runs w' id → Runs w' id' → id = id'

namespace Reconciliation

variable {D : Deployment} {w : World}

def trackedJobs (w : World) : List Job := w.jobs.listByStatuses monitoredStatuses

def orphanIds (w : World) : List String :=
  w.containers.listRunningContainerIds.dedup.filter
    fun id => id ∉ (trackedJobs w).filterMap Job.container?

def resumedJobs (w : World) : List Job :=
  (trackedJobs w).filter fun job =>
    w.containers.listRunningContainerIds.any fun id => job.containerId = some id

theorem mem_trackedJobs {job : Job} :
    job ∈ trackedJobs w ↔ job ∈ w.jobs ∧ job.status ∈ monitoredStatuses :=
  JobTable.mem_listByStatuses

theorem mem_runningIds {id : String} :
    id ∈ w.containers.listRunningContainerIds ↔ Runs w id :=
  Containers.mem_listRunningContainerIds

theorem tracked_iff {id : String} (hid : id ≠ "") :
    id ∈ (trackedJobs w).filterMap Job.container? ↔ Tracked w id := by
  have hcontainer : ∀ job : Job, job.container? = some id ↔ job.containerId = some id := by
    intro job
    rw [Job.container?_eq_some]
    exact and_iff_left hid
  unfold Tracked
  rw [List.mem_filterMap]
  simp only [hcontainer, mem_trackedJobs, and_assoc]

theorem mem_orphanIds {id : String} (hnamed : ∀ c ∈ w.containers, c.id ≠ "") :
    id ∈ orphanIds w ↔ Runs w id ∧ ¬ Tracked w id := by
  unfold orphanIds
  rw [List.mem_filter, List.mem_dedup, mem_runningIds]
  constructor
  · rintro ⟨hruns, horphan⟩
    have hexists := hruns
    obtain ⟨c, hc, rfl, -⟩ := hexists
    refine ⟨hruns, ?_⟩
    rw [← tracked_iff (hnamed c hc)]
    exact of_decide_eq_true horphan
  · rintro ⟨hruns, horphan⟩
    have hexists := hruns
    obtain ⟨c, hc, rfl, -⟩ := hexists
    refine ⟨hruns, decide_eq_true ?_⟩
    rwa [tracked_iff (hnamed c hc)]

theorem mem_resumedJobs {job : Job} :
    job ∈ resumedJobs w ↔ job ∈ w.jobs ∧ job.status ∈ monitoredStatuses ∧
      ∃ id, job.containerId = some id ∧ Runs w id := by
  unfold resumedJobs
  rw [List.mem_filter, mem_trackedJobs, and_assoc, List.any_eq_true]
  constructor
  · rintro ⟨hjob, hstatus, id, hid, heq⟩
    exact ⟨hjob, hstatus, id, of_decide_eq_true heq, mem_runningIds.mp hid⟩
  · rintro ⟨hjob, hstatus, id, heq, hid⟩
    exact ⟨hjob, hstatus, id, mem_runningIds.mpr hid, decide_eq_true heq⟩

theorem eval_killAll {α : Type} (xs : ℕ → Choice) {ids : List String} (f : Unit → Service α)
    (hnodup : ids.Nodup) (hruns : ∀ id ∈ ids, w.containers.stateOf id = .running) :
    eval (World.exec D.steady) xs w (killAll ids >>= f) =
      eval (World.exec D.steady) (fun n => xs (n + ids.length))
        { w with containers := w.containers.killed ids } (f ()) := by
  induction ids generalizing w xs with
  | nil => rfl
  | cons id ids ih =>
    obtain ⟨hid, hnodup⟩ := List.nodup_cons.mp hnodup
    have hkill := Containers.kill_running (hruns id List.mem_cons_self)
    unfold killAll
    rw [eval_perform_bind]
    simp only [World.exec, hkill, Option.bind_some]
    have hrest : ∀ j ∈ ids, (w.containers.killed [id]).stateOf j = .running := by
      intro j hj
      have hne : j ∉ [id] := by
        rw [List.mem_singleton]
        rintro rfl
        exact hid hj
      rw [Containers.stateOf_killed_of_notMem hne]
      exact hruns j (List.mem_cons_of_mem id hj)
    have hnext := ih (w := { w with containers := w.containers.killed [id] })
      (fun n => xs (n + 1)) hnodup hrest
    have hlength : ∀ n, n + ids.length + 1 = n + (ids.length + 1) := by
      intro n
      omega
    simp only [hlength] at hnext
    exact hnext

theorem orphanIds_nodup (w : World) : (orphanIds w).Nodup :=
  (List.nodup_dedup _).filter _

/-- What reconciliation returns and leaves behind. -/
theorem eval_reconcile (xs : ℕ → Choice) :
    eval (World.exec D.steady) xs w reconcile =
      some (.ok { resumedJobs := resumedJobs w,
                  killedOrphanContainerIds := (orphanIds w).insertionSort (· ≤ ·) },
        { w with containers := w.containers.killed (orphanIds w) }) := by
  have hruns : ∀ id ∈ orphanIds w, w.containers.stateOf id = .running := by
    intro id hid
    have hrunning := List.mem_dedup.mp (List.mem_filter.mp hid).1
    obtain ⟨c, hc, rfl, hstate, -⟩ := mem_runningIds.mp hrunning
    rw [Containers.stateOf_of_mem hc, hstate]
  unfold reconcile
  rw [eval_perform]
  simp only [World.exec, Option.bind_some]
  rw [eval_perform]
  simp only [World.exec, Option.bind_some]
  exact eval_killAll _ _ (orphanIds_nodup w) hruns

/-- Killing other containers does not stop a container, and no container is started. -/
theorem runs_killed {ids : List String} {containerId : String} :
    Runs { w with containers := w.containers.killed ids } containerId ↔
      Runs w containerId ∧ containerId ∉ ids := by
  unfold Runs
  constructor
  · rintro ⟨c, hc, rfl, hstate, hlabel⟩
    obtain ⟨old, hold, hput⟩ := Containers.of_mem_killed hc
    by_cases hid : c.id ∈ ids
    · rw [if_pos hid] at hput
      rw [← hput] at hstate
      cases hstate
    · rw [if_neg hid] at hput
      subst hput
      exact ⟨⟨old, hold, rfl, hstate, hlabel⟩, hid⟩
  · rintro ⟨⟨c, hc, rfl, hstate, hlabel⟩, hid⟩
    exact ⟨c, Containers.mem_killed_of_notMem hc hid, rfl, hstate, hlabel⟩

/-- An orphan carries the label, whatever its state. -/
theorem labelled_of_orphan {c : Container} (hc : c ∈ w.containers) (h : c.id ∈ orphanIds w) :
    c.spec.jobId?.isSome = true := by
  have hrunning := List.mem_dedup.mp (List.mem_filter.mp h).1
  obtain ⟨other, hother, hid, -, hlabel⟩ := mem_runningIds.mp hrunning
  have hsame : other = c := Table.eq_of_key_eq hother hc hid
  rwa [hsame] at hlabel

theorem foreign_killed {c : Container} (h : c.spec.jobId? = none) :
    c ∈ w.containers.killed (orphanIds w) ↔ c ∈ w.containers := by
  constructor
  · intro hc
    obtain ⟨old, hold, hput⟩ := Containers.of_mem_killed hc
    by_cases hid : c.id ∈ orphanIds w
    · rw [if_pos hid] at hput
      subst hput
      have hunlabelled : old.spec.jobId? = none := h
      have hlabel := labelled_of_orphan hold hid
      rw [hunlabelled] at hlabel
      cases hlabel
    · rw [if_neg hid] at hput
      rwa [← hput]
  · intro hc
    apply Containers.mem_killed_of_notMem hc
    intro hid
    have hlabel := labelled_of_orphan hc hid
    rw [h] at hlabel
    cases hlabel

/-- Nothing is left to kill. -/
theorem orphanIds_killed :
    orphanIds { w with containers := w.containers.killed (orphanIds w) } = [] := by
  apply List.eq_nil_iff_forall_not_mem.mpr
  intro id hid
  obtain ⟨hrunning, horphan⟩ := List.mem_filter.mp hid
  have hruns := mem_runningIds.mp (List.mem_dedup.mp hrunning)
  obtain ⟨hbefore, hkept⟩ := runs_killed.mp hruns
  exact hkept (List.mem_filter.mpr ⟨List.mem_dedup.mpr (mem_runningIds.mpr hbefore), horphan⟩)

theorem reconciled (hnamed : ∀ c ∈ w.containers, c.id ≠ "") :
    Reconciled w { w with containers := w.containers.killed (orphanIds w) }
      { resumedJobs := resumedJobs w,
        killedOrphanContainerIds := (orphanIds w).insertionSort (· ≤ ·) } := by
  have hruns : ∀ id, Runs { w with containers := w.containers.killed (orphanIds w) } id ↔
      Runs w id ∧ Tracked w id := by
    intro id
    rw [runs_killed, mem_orphanIds hnamed]
    constructor
    · rintro ⟨hrunning, hkept⟩
      exact ⟨hrunning, not_not.mp fun horphan => hkept ⟨hrunning, horphan⟩⟩
    · rintro ⟨hrunning, htracked⟩
      exact ⟨hrunning, fun horphan => horphan.2 htracked⟩
  constructor
  case runs => exact hruns
  case killed =>
    intro id
    rw [List.mem_insertionSort]
    exact mem_orphanIds hnamed
  case killed_once =>
    have hperm := List.perm_insertionSort (fun a b : String => a ≤ b) (orphanIds w)
    exact hperm.nodup_iff.mpr (orphanIds_nodup w)
  case resumed =>
    intro job
    exact mem_resumedJobs
  case resumed_once =>
    have hnodup := List.Nodup.of_map Job.id (w.jobs.listByStatuses_nodup monitoredStatuses)
    exact hnodup.filter _
  case oldest_first =>
    unfold resumedJobs trackedJobs JobTable.listByStatuses
    have hsorted := List.pairwise_insertionSort (fun a b : Job => a.createdAt ≤ b.createdAt)
      (w.jobs.rows.filter fun job => job.status ∈ monitoredStatuses)
    exact hsorted.filter _
  case still_runs =>
    intro job hjob
    obtain ⟨hmem, hstatus, id, hid, hrunning⟩ := mem_resumedJobs.mp hjob
    have htracked : Tracked w id := ⟨job, hmem, hstatus, hid⟩
    exact ⟨id, hid, (hruns id).mpr ⟨hrunning, htracked⟩⟩
  case foreign =>
    intro c hlabel
    exact foreign_killed hlabel
  case unchanged => rfl
  case exclusive =>
    intro hone id id' hrunning hrunning'
    obtain ⟨-, a, ha, hstatus, hid⟩ := (hruns id).mp hrunning
    obtain ⟨-, b, hb, hstatus', hid'⟩ := (hruns id').mp hrunning'
    obtain rfl := hone a ha b hb hstatus hstatus'
    exact Option.some.inj (hid.symm.trans hid')

end Reconciliation

/-- Reconciliation ends, and doing it once more kills nothing. Docker names every container. -/
theorem reconcile_exact (D : Deployment) (xs : ℕ → Choice) {w : World}
    (hnamed : ∀ c ∈ w.containers, c.id ≠ "") :
    ∃ result w', eval (World.exec D.steady) xs w reconcile = some (.ok result, w') ∧
      Reconciled w w' result ∧
      ∀ xs', ∃ result', eval (World.exec D.steady) xs' w' reconcile = some (.ok result', w') ∧
        result'.killedOrphanContainerIds = [] := by
  refine ⟨_, _, Reconciliation.eval_reconcile xs, Reconciliation.reconciled hnamed, fun xs' => ?_⟩
  have hagain := Reconciliation.eval_reconcile (D := D) xs'
    (w := { w with containers := w.containers.killed (Reconciliation.orphanIds w) })
  rw [Reconciliation.orphanIds_killed] at hagain
  exact ⟨_, hagain, rfl⟩

namespace Reconciliation

def spec (labels : List (String × String)) : ContainerSpec :=
  { image := "", name := "", command := [], volumes := Table.empty, environment := [], labels := labels }

/-- The container of a job, one that no document names, and one of somebody else. -/
def afterCrash : World :=
  { World.sample with
    jobs := Table.empty.put
      { id := "j", userId := "user", policy := .act, sourceType := .hfHub, sourceRef := "org/dataset",
        trainingSteps := 100, status := .training, containerId := some "c", createdAt := 0,
        updatedAt := 0 }
    containers := ((Table.empty.put ⟨"c", spec [(lerobotJobIdLabel, "j")], .running⟩).put
      ⟨"orphan", spec [(lerobotJobIdLabel, "k")], .running⟩).put ⟨"foreign", spec [], .running⟩ }

theorem afterCrash_named : ∀ c ∈ afterCrash.containers, c.id ≠ "" := by
  intro c hc
  have hid : c.id ∈ ["c", "orphan", "foreign"] := List.mem_map_of_mem hc
  intro hempty
  rw [hempty] at hid
  revert hid
  decide

end Reconciliation

theorem reconcile_exact_crash : ∃ result w',
    eval (World.exec Deployment.sample.steady) (fun _ => {}) Reconciliation.afterCrash reconcile =
      some (.ok result, w') ∧
    Reconciled Reconciliation.afterCrash w' result ∧
    ∀ xs', ∃ result',
      eval (World.exec Deployment.sample.steady) xs' w' reconcile = some (.ok result', w') ∧
      result'.killedOrphanContainerIds = [] :=
  reconcile_exact .sample (fun _ => {}) Reconciliation.afterCrash_named

end TrainVla
