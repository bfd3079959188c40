import TrainVla.System.ApiConduct
import TrainVla.Properties.WorkerLocking
import TrainVla.Properties.Documents
import TrainVla.Properties.SingleStart

/-! What many worker processes do together is what one worker does that crashes at times. -/
namespace TrainVla

open Interaction Store WorkerLocking

abbrev ApiRecord := Record Request Call World

/-- The worker processes of a run, one after the other: each of them cleans up and reconciles before
its first tick, and goes on in the order of the loop, until it ends. -/
theorem worker_fleet_refines (I : Installation) {P : Type} [DecidableEq P] {w : World}
    {ls : List (WorkerFleetLabel P)} {rs : List ApiRecord} {c : WorkerFleetConf P}
    (hr : I.fleet.run (.initial w) ls = some (rs, c)) :
    (∃ a, I.system.run (.initial w) (I.fleet.schedule (.initial w) ls) = some (rs, a) ∧
      a.state = c.state ∧ a.pool = c.pool ∧
      (∀ p lock r prog, c.procs p = some (.inside lock r prog) → a.thread = some (r, prog)) ∧
      ((∀ p, ¬ c.Inside p) → a.idle = true)) ∧
    (.crash :: (I.fleet.schedule (.initial w) ls).filter Label.turns).IsChain I.fleet.Follows := by
  have hlawful := I.lawful P
  obtain ⟨-, a, hrun, hm⟩ := Fleet.run_refines hlawful (.initial w) (.initial w) hr
  refine ⟨⟨a, hrun, hm.state, hm.pool, hm.thread.inside, hm.thread.none⟩, ?_⟩
  exact Fleet.schedule_follows hlawful (.initial w) (.initial rfl) hr

namespace WorkerFleet

/-- A worker starts up and is killed, and another one gets to its first tick. -/
def restarted : List (WorkerFleetLabel ℕ) :=
  attempt 0 3 ++ [.letIn 0, .work 0 {}, .work 0 {}, .work 0 {}, .exit 0] ++ attempt 1 3 ++
    .letIn 1 :: List.replicate 4 (.work 1 {}) ++ [.next 1, .work 1 {}]

section

variable {I : Installation} {P : Type} [DecidableEq P] {w : World}
  {ls : List (WorkerFleetLabel P)} {rs : List ApiRecord} {c : WorkerFleetConf P}

theorem history_of_run (hjobs : w.jobs = Table.empty) (hlog : w.log = [])
    (hr : I.fleet.run (.initial w) ls = some (rs, c)) : Documents.History c.state := by
  have hempty : ∀ job ∈ w.jobs, WellFormed job := by
    intro job hjob
    rw [hjobs] at hjob
    exact absurd hjob (Table.not_mem_empty job)
  have hinit : Documents.History w := by
    constructor
    · intro job hjob
      rw [hjobs] at hjob
      exact absurd hjob (Table.not_mem_empty job)
    · rintro job ⟨time, old, hmem⟩
      rw [hlog] at hmem
      cases hmem
  have hsound : Documents.protocol.toProtocol.Sound I.deployment fun _ => True :=
    Documents.sound.protocol
  obtain ⟨-, hknown⟩ := hsound.fleet_run (fun _ _ _ => trivial) (fun _ _ _ => trivial)
    (fun _ => trivial) (fun _ => trivial) trivial hempty (fun _ _ => trivial) hr
  refine (Installation.fleet_states hr (fun r hmem => Documents.history_of_known (hknown r hmem))
    (fun v s s' he hs => ?_) hinit).2
  obtain ⟨hj, -, -, entries, hlog', hentries⟩ := World.occur_frame he
  refine Documents.history_of_frame hs hj hlog' ?_
  rintro entry hmem time old job rfl
  obtain ⟨objectPath, data, heq⟩ := hentries _ hmem
  cases heq

theorem orderly_of_run (hlog : w.log = [])
    (hl : ∀ l, .outer l ∈ ls → WorkerInterleaved (l.map (Request.op I)))
    (hr : I.fleet.run (.initial w) ls = some (rs, c)) : SingleStart.Orderly c.state.log := by
  have hinv : SingleStart.Inv w := by
    refine ⟨?_, ?_, ?_⟩ <;> rw [hlog]
    · trivial
    · exact fun id hid => absurd hid List.not_mem_nil
    · exact fun job _ _ => List.not_mem_nil
  have hsound : SingleStart.protocol.Sound I.deployment WorkerInterleaved := SingleStart.sound
  have hrun := hsound.fleet_run (fun _ _ _ => trivial) (fun _ _ _ => trivial) (fun _ => trivial)
    (fun _ => trivial) trivial hinv hl hr
  exact hrun.1.orderly

end

end WorkerFleet

open WorkerFleet

theorem worker_fleet_refines_restarted : ∃ rs c,
    Installation.sample.fleet.run (.initial .sample) restarted = some (rs, c) ∧ c.Inside 1 ∧
      ∃ a, Installation.sample.system.run (.initial .sample)
        (Installation.sample.fleet.schedule (.initial .sample) restarted) = some (rs, a) ∧
        a.state = c.state := by
  have hrun : (Installation.sample.fleet.run (.initial .sample) restarted).any (fun out =>
      (out.2.procs 1).any Process.runs) = true := by
    rfl
  obtain ⟨⟨rs, c⟩, hr, hinside⟩ := (Option.any_eq_true _ _).mp hrun
  obtain ⟨⟨a, hrun', hstate, -⟩, -⟩ := worker_fleet_refines .sample hr
  exact ⟨rs, c, hr, FleetConf.inside_iff.mpr hinside, a, hrun', hstate⟩

open Documents SingleStart

/-- Whatever requests there are and however many worker processes: the documents ever stored are
well formed and keep what they were created with. As long as requests are not interrupted, every job
is charged at most once and run at most once, and it is charged before it is run. -/
theorem worker_fleet_history (I : Installation) {P : Type} [DecidableEq P] {w : World}
    {ls : List (WorkerFleetLabel P)} {rs : List ApiRecord} {c : WorkerFleetConf P}
    (hjobs : w.jobs = Table.empty) (hlog : w.log = [])
    (hr : I.fleet.run (.initial w) ls = some (rs, c)) :
    (∀ job, Stored c.state job →
      WellFormed job ∧ ∃ first, Created c.state first ∧ job.SameOrigin first) ∧
    (∀ job ∈ c.state.jobs, Stored c.state job) ∧
    ((∀ l, .outer l ∈ ls → WorkerInterleaved (l.map (Request.op I))) →
      (chargedIds c.state.log).Nodup ∧ (ranIds c.state.log).Nodup ∧
        ∀ later earlier jobId, c.state.log = later ++ .ran jobId :: earlier →
          ∃ id, jobId = some id ∧ id ∈ chargedIds earlier) := by
  have hhistory := history_of_run hjobs hlog hr
  refine ⟨hhistory.stored, hhistory.present, fun hl => ?_⟩
  have horderly := orderly_of_run hlog hl hr
  refine ⟨horderly.chargedIds_nodup, horderly.ranIds_nodup, fun later earlier jobId heq => ?_⟩
  rw [heq] at horderly
  exact horderly.charged_before

namespace WorkerFleet

/-- There is a dataset on the hub, and it was downloaded before. -/
def hub : World :=
  { World.sample with
    repos := Table.empty.put ("org/dataset", [("meta/info.json", []), ("data/chunk", [])]) }

/-- A job is submitted. Its container is started by a worker that is killed before it records that,
and is killed by the next one. -/
def killedStart : List (WorkerFleetLabel ℕ) :=
  .outer (.whole (.submitHfDataset (some "Bearer user") "org/dataset" .act 100)
      (List.replicate 12 { text := "j" })) ::
    attempt 0 3 ++ .letIn 0 :: List.replicate 4 (.work 0 {}) ++ .next 0 ::
    List.replicate 10 (.work 0 {}) ++ [.work 0 { text := "c" }, .exit 0] ++
    attempt 1 3 ++ .letIn 1 :: List.replicate 5 (.work 1 {}) ++ [.next 1]

end WorkerFleet

/-- The job is run once. -/
theorem worker_fleet_history_killed : ∃ rs c,
    Installation.camera.fleet.run (.initial hub) killedStart = some (rs, c) ∧
      "j" ∈ ranIds c.state.log ∧ (chargedIds c.state.log).Nodup ∧ (ranIds c.state.log).Nodup := by
  have hrun : (Installation.camera.fleet.run (.initial hub) killedStart).any
      (fun out => "j" ∈ ranIds out.2.state.log) = true := by
    rfl
  obtain ⟨⟨rs, c⟩, hr, hran⟩ := (Option.any_eq_true _ _).mp hrun
  have hl : ∀ l, .outer l ∈ killedStart → WorkerInterleaved (l.map (Request.op .camera)) := by
    intro l hmem
    have heq : l = .whole (.submitHfDataset (some "Bearer user") "org/dataset" .act 100)
        (List.replicate 12 { text := "j" }) := by
      simpa [killedStart, attempt] using hmem
    rw [heq]
    rfl
  obtain ⟨hcharged, hran', -⟩ := (worker_fleet_history .camera rfl rfl hr).2.2 hl
  exact ⟨rs, c, hr, of_decide_eq_true hran, hcharged, hran'⟩

end TrainVla
