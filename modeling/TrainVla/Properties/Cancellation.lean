import TrainVla.System.JobProtocol
import TrainVla.System.JobWrites

/-! A cancellation that was accepted stays requested, as long as nobody overwrites the
document from before. -/
namespace TrainVla

open Interaction Store

namespace Cancellation

/-- The cancellation flag is not cleared. -/
def FlagKept (old new : Job) : Prop := old.cancelRequested = true → new.cancelRequested = true

def asksToCancel : Op → Bool
  | .requestCancel _ _ => true
  | _ => false

/-- A write that is not itself a request, over a document with the flag, was computed from a
document with the flag. -/
def Informed (op : Op) (jobs : JobTable) (c : Call) : Prop :=
  ∀ write ∈ c.rewrite?, asksToCancel op = false →
    ∀ stored ∈ jobs.get? write.new.id, stored.cancelRequested = true →
      write.seen.cancelRequested = true

instance (op : Op) (jobs : JobTable) (c : Call) : Decidable (Informed op jobs c) :=
  inferInstanceAs (Decidable (∀ _ ∈ _, _))

def protocol : JobProtocol where
  inv _ := True
  rely _ := Table.Evolves FlagKept
  cond := Informed
  knows _ _ seen jobs := Table.Copy FlagKept seen jobs

theorem FlagKept.rfl (job : Job) : FlagKept job job := id

theorem FlagKept.trans (a b c : Job) (h₁ : FlagKept a b) (h₂ : FlagKept b c) : FlagKept a c :=
  fun h => h₂ (h₁ h)

theorem evolves_of_informed {op : Op} {st st' : Stage} {seen new : Job} {now : ℤ}
    {jobs : JobTable} (hw : JobWrite op st seen now st' new)
    (h : Informed op jobs (.jobsUpdate seen new)) : Table.Evolves FlagKept jobs (jobs.put new) := by
  refine Table.evolves_put .rfl fun stored hstored hflag => ?_
  cases hop : asksToCancel op with
  | true =>
    cases hw with
    | requestCancel _ => rfl
    | _ => cases hop
  | false =>
    rcases hw.cancelRequested_eq with heq | ⟨hnew, -⟩
    · rw [heq]
      exact h _ rfl hop stored hstored hflag
    · exact hnew

theorem sound : protocol.Sound where
  refl _ _ := .rfl .rfl
  trans _ _ _ _ := .trans .trans
  stable _ _ _ _ _ hrely _ hk := hk.evolve hrely .trans
  found _ _ _ _ _ _ hmem := .of_mem .rfl hmem
  promote _ _ _ _ _ _ hk := hk
  wrote _ _ _ _ _ new jobs _ hw _ hc :=
    ⟨trivial, .put_self .rfl jobs new, fun _ hjob hne => hjob.put_of_ne hne,
      fun _ _ => evolves_of_informed hw hc⟩
  created _ _ _ _ _ _ _ _ _ hfresh _ := ⟨trivial, fun _ => Table.evolves_put_fresh .rfl hfresh⟩

end Cancellation

open Cancellation

/-- In every interleaving of single calls in which all writes are informed: once a request to
cancel has returned, the flag of its job is set in every later state. -/
theorem accepted_cancellations_stay (D : Deployment) {w : World} {ls ls' : List SysLabel}
    {rs rs' : List SysRecord} {c c' : SysConf} {userId jobId : String}
    (hl : ∀ l ∈ ls ++ ls', Interleaved l) (hr : D.system.run (.initial w) ls = some (rs, c))
    (hdone : (Op.requestCancel userId jobId, Prog.pure ()) ∈ c.pool)
    (hr' : D.system.run c ls' = some (rs', c'))
    (hcond : ∀ r ∈ rs ++ rs', Informed r.op r.before.jobs r.call) :
    ∃ job, c'.state.jobs.get? jobId = some job ∧ job.cancelRequested = true := by
  have hrun := Machine.run_append hr hr'
  have hgood := (Cancellation.sound.run trivial hl hrun fun r hmem _ => hcond r hmem).2
  have hpool := Machine.mem_pool_of_finished hr' rfl hdone
  obtain ⟨-, -, hsafe⟩ := hgood.pool _ _ hpool
  have hpre : (protocol.toProtocol.outline D).Preorders := Cancellation.sound.valid.preorders
  have hpost := Safe.outcome_of_finished hpre hgood.inv hsafe
  obtain ⟨job, rfl, hflag, stored, hstored, hkept⟩ := hpost.2 userId jobId rfl rfl
  exact ⟨stored, hstored, hkept hflag⟩

/-- Has a request to cancel the job been accepted? -/
def accepted (c : SysConf) (userId jobId : String) : Bool :=
  c.pool.any fun
    | (.requestCancel u j, .pure ()) => u = userId && j = jobId
    | _ => false

theorem mem_of_accepted {c : SysConf} {userId jobId : String} (h : accepted c userId jobId = true) :
    (Op.requestCancel userId jobId, Prog.pure ()) ∈ c.pool := by
  obtain ⟨entry, hmem, hentry⟩ := List.any_eq_true.mp h
  split at hentry
  · rw [Bool.and_eq_true, decide_eq_true_eq, decide_eq_true_eq] at hentry
    obtain ⟨rfl, rfl⟩ := hentry
    exact hmem
  · cases hentry

/-- A job is started, and its cancellation is requested before its container is recorded. -/
def overwrittenRequest : List SysLabel :=
  Run.create "j" ++ .start .pollerTick :: List.replicate 8 (.work {}) ++
    .spawn (.requestCancel "user" "j") :: List.replicate 3 (.serve 1 {})

def recordsContainer : List SysLabel := [.work {}, .work {}, .work { text := "c" }, .work {}]

/-- The poller writes the container into the document that it read before the request. -/
theorem accepted_cancellations_stay_fails : ¬ ∀ (ls ls' : List SysLabel) (rs rs' : List SysRecord)
    (c c' : SysConf), (∀ l ∈ ls ++ ls', Interleaved l) →
    Deployment.sample.system.run (.initial .sample) ls = some (rs, c) →
    (Op.requestCancel "user" "j", Prog.pure ()) ∈ c.pool →
    Deployment.sample.system.run c ls' = some (rs', c') →
    ∃ job, c'.state.jobs.get? "j" = some job ∧ job.cancelRequested = true := by
  intro h
  have hrun : (Deployment.sample.system.run (.initial .sample) overwrittenRequest).any (fun out =>
      accepted out.2 "user" "j" && (Deployment.sample.system.run out.2 recordsContainer).any
        fun out' => (out'.2.state.jobs.get? "j").all fun job => !job.cancelRequested) = true := by
    rfl
  obtain ⟨⟨rs, c⟩, hr, hrest⟩ := (Option.any_eq_true _ _).mp hrun
  obtain ⟨haccepted, hrest⟩ := Bool.and_eq_true_iff.mp hrest
  obtain ⟨⟨rs', c'⟩, hr', hcleared⟩ := (Option.any_eq_true _ _).mp hrest
  obtain ⟨job, hjob, hflag⟩ := h overwrittenRequest recordsContainer rs rs' c c' (by decide) hr
    (mem_of_accepted haccepted) hr'
  rw [hjob, Option.all_some, hflag] at hcleared
  cases hcleared

/-- The next tick of the poller cancels the job, and the flag stays. -/
theorem accepted_cancellations_stay_queued : ∃ rs c rs' c',
    Deployment.sample.system.run (.initial .sample) (Run.create "j" ++
      .spawn (.requestCancel "user" "j") :: List.replicate 3 (.serve 1 {})) = some (rs, c) ∧
    Deployment.sample.system.run c (.start .pollerTick :: List.replicate 3 (.work {})) =
      some (rs', c') ∧
    ∃ job, c'.state.jobs.get? "j" = some job ∧ job.cancelRequested = true := by
  have hrun : (Deployment.sample.system.run (.initial .sample) (Run.create "j" ++
      .spawn (.requestCancel "user" "j") :: List.replicate 3 (.serve 1 {}))).any (fun out =>
      accepted out.2 "user" "j" && (Deployment.sample.system.run out.2
        (.start .pollerTick :: List.replicate 3 (.work {}))).any fun out' =>
          (out.1 ++ out'.1).all fun r => Informed r.op r.before.jobs r.call) = true := by rfl
  obtain ⟨⟨rs, c⟩, hr, hrest⟩ := (Option.any_eq_true _ _).mp hrun
  obtain ⟨haccepted, hrest⟩ := Bool.and_eq_true_iff.mp hrest
  obtain ⟨⟨rs', c'⟩, hr', hinformed⟩ := (Option.any_eq_true _ _).mp hrest
  refine ⟨rs, c, rs', c', hr, hr', ?_⟩
  exact accepted_cancellations_stay .sample (by decide) hr (mem_of_accepted haccepted) hr'
    fun r hmem => of_decide_eq_true (List.all_eq_true.mp hinformed r hmem)

end TrainVla
