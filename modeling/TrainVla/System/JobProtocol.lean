import TrainVla.System.Soundness
import TrainVla.Store.Copies

/-! Protocols about the job documents alone: what the parties know is a relation between the
document they hold and the table, and only the two writes matter. -/
namespace TrainVla

open Interaction Store

/-- How an operation comes to hold a document in a later stage without writing it. -/
inductive Promotion : Stage → Job → Stage → Prop
  | killed {job : Job} {containerId : String} (h : job.container? = some containerId) :
    Promotion .read job .dead
  | owned {job : Job} {user : User} : Promotion .next job (.owned user)
  | charged {job : Job} {user : User} : Promotion (.started user) job .charged
  | launched {job : Job} {containerId : String} : Promotion .charged job (.launched containerId)
  | refused {job : Job} : Promotion .charged job .refused
  | sawProgress {job : Job} {progress : Option Progress} :
    Promotion .read job (.sawProgress progress)
  | sawNoContainer {job : Job} {progress : Option Progress} :
    Promotion .read job (.polled progress none)
  | polled {job : Job} {progress : Option Progress} {containerId : String} {exitCode : Option ℤ}
      (h : job.container? = some containerId) :
    Promotion (.sawProgress progress) job (.polled progress exitCode)

structure JobProtocol where
  inv : JobTable → Prop
  rely : Op → JobTable → JobTable → Prop
  cond : Op → JobTable → Call → Prop
  knows : Op → Stage → Job → JobTable → Prop

namespace JobProtocol

variable (J : JobProtocol)

def toProtocol : Protocol where
  inv w := J.inv w.jobs
  rely op w w' := J.rely op w.jobs w'.jobs
  cond op w c := J.cond op w.jobs c
  holds op f w :=
    match f with
    | .job st job => J.knows op st job w.jobs
    | _ => True

/-- The thread does one thing at a time. -/
def Others (op op' : Op) : Prop := op.threaded = true → op'.threaded = false

structure Sound : Prop where
  refl : ∀ op jobs, J.rely op jobs jobs
  trans : ∀ op jobs₁ jobs₂ jobs₃, J.rely op jobs₁ jobs₂ → J.rely op jobs₂ jobs₃ →
    J.rely op jobs₁ jobs₃
  stable : ∀ op st job jobs jobs', J.rely op jobs jobs' → J.inv jobs' → J.knows op st job jobs →
    J.knows op st job jobs'
  found : ∀ op st job jobs, st = .read ∨ st = .next → J.inv jobs → job ∈ jobs →
    J.knows op st job jobs
  promote : ∀ op st st' job jobs, Promotion st job st' → J.knows op st job jobs →
    J.knows op st' job jobs
  wrote : ∀ op st seen now st' new jobs, J.inv jobs → JobWrite op st seen now st' new →
    J.knows op st seen jobs → J.cond op jobs (.jobsUpdate seen new) →
    J.inv (jobs.put new) ∧ J.knows op st' new (jobs.put new) ∧
      (∀ job, J.knows op .read job jobs → job.id ≠ new.id → J.knows op .read job (jobs.put new)) ∧
      ∀ op', Others op op' → J.rely op' jobs (jobs.put new)
  created : ∀ op user owned today now job jobs, J.inv jobs → NewJob user owned today now job →
    jobs.get? job.id = none → J.cond op jobs (.jobsCreate job) →
    J.inv (jobs.put job) ∧ ∀ op', J.rely op' jobs (jobs.put job)

variable {J} {D : Deployment} {permit : SysLabel → Prop}

theorem Sound.valid (hJ : J.Sound) : J.toProtocol.Valid D where
  preorders := ⟨fun op w => hJ.refl op w.jobs,
    fun op w₁ w₂ w₃ => hJ.trans op w₁.jobs w₂.jobs w₃.jobs⟩
  stable op f w w' hr hi hf := by
    cases f with
    | job st job => exact hJ.stable op st job w.jobs w'.jobs hr hi hf
    | _ => trivial
  survive op o w c r w' f hi hpre hc he hs hf := by
    cases f with
    | job st job =>
      have hframe : c.writesJobs = false → J.knows op st job w'.jobs := by
        intro h
        rw [(World.exec_frame he).jobs h]
        exact hf
      cases keepsDocument_of_survives hs with
      | quiet hjobs => exact hframe hjobs
      | @updated seen new hst hne =>
        subst hst
        obtain rfl := World.exec_jobsUpdate he
        obtain ⟨st, now, st', hw, hk, -⟩ := hpre
        exact (hJ.wrote op st seen now st' new w.jobs hi hw hk hc).2.2.1 job hf hne
      | killed => exact hframe rfl
      | removed => exact hframe rfl
    | _ => trivial
  learn op o w c r w' fs f hi hpre hc he hl hfs := by
    have hframe : c.writesJobs = false → w'.jobs = w.jobs := (World.exec_frame he).jobs
    -- the document was held before, and the call was not a write
    have hpromote : ∀ {st st' job}, c.writesJobs = false → Promotion st job st' →
        .job st job ∈ fs → J.knows op st' job w'.jobs := by
      intro st st' job hq hp hm
      have hk : J.knows op st job w.jobs := hfs _ hm
      rw [hframe hq]
      exact hJ.promote op st st' job w.jobs hp hk
    cases hl with
    | got =>
      obtain ⟨hget, rfl⟩ := Prod.mk.inj (Option.some.inj he)
      exact hJ.found op .read _ w.jobs (.inl rfl) hi (Table.mem_of_get? hget)
    | found hmem =>
      obtain ⟨rfl, rfl⟩ := Prod.mk.inj (Option.some.inj he)
      exact hJ.found op .read _ w.jobs (.inl rfl) hi (JobTable.mem_listByStatuses.mp hmem).1
    | next =>
      obtain ⟨hjobs, rfl⟩ := Prod.mk.inj (Option.some.inj he)
      have hmem := JobTable.mem_listByStatuses.mp (hjobs ▸ List.mem_cons_self ..)
      exact hJ.found _ .next _ w.jobs (.inr rfl) hi hmem.1
    | wrote h hjob _ _ =>
      obtain rfl := World.exec_jobsUpdate he
      exact (hJ.wrote op _ _ _ _ _ w.jobs hi h (hfs _ hjob) hc).2.1
    | owned => exact hpromote rfl .owned (by simp)
    | charged => exact hpromote rfl .charged (List.mem_singleton_self _)
    | launched _ => exact hpromote rfl .launched (by simp)
    | refused _ => exact hpromote rfl .refused (by simp)
    | killed h => exact hpromote rfl (.killed h) (by simp)
    | sawProgress _ => exact hpromote rfl .sawProgress (by simp)
    | sawNoContainer _ _ => exact hpromote rfl .sawNoContainer (by simp)
    | polled h => exact hpromote rfl (.polled h) (List.mem_singleton_self _)
    | _ => trivial

theorem Sound.protocol (hJ : J.Sound) : J.toProtocol.Sound D permit where
  toValid := hJ.valid
  exec op o w c r w' hi hpre hc he := by
    have hframe : c.writesJobs = false → J.inv w'.jobs ∧ ∀ op', J.rely op' w.jobs w'.jobs := by
      intro h
      rw [(World.exec_frame he).jobs h]
      exact ⟨hi, fun op' => hJ.refl op' w.jobs⟩
    cases c with
    | jobsCreate job =>
      obtain ⟨rfl, hfresh⟩ := World.exec_jobsCreate he
      obtain ⟨-, user, owned, today, now, hnew, -⟩ := hpre
      obtain ⟨hi', hrely⟩ := hJ.created op user owned today now job w.jobs hi hnew hfresh hc
      exact ⟨hi', fun op' _ => hrely op'⟩
    | jobsUpdate seen new =>
      obtain rfl := World.exec_jobsUpdate he
      obtain ⟨st, now, st', hw, hk, -⟩ := hpre
      obtain ⟨hi', -, -, hrely⟩ := hJ.wrote op st seen now st' new w.jobs hi hw hk hc
      exact ⟨hi', fun op' h => hrely op' h.2⟩
    | _ => exact ⟨(hframe rfl).1, fun op' _ => (hframe rfl).2 op'⟩
  occur v w w' _ hi he := by
    have hjobs : w'.jobs = w.jobs := (World.occur_frame he).1
    refine ⟨?_, fun op' _ => ?_⟩
    · show J.inv w'.jobs
      rw [hjobs]
      exact hi
    · show J.rely op' w.jobs w'.jobs
      rw [hjobs]
      exact hJ.refl op' w.jobs

/-- Whole runs from a table that satisfies the invariant, with nothing in flight. -/
theorem Sound.run (hJ : J.Sound) {w : World} {ls : List SysLabel} {rs : List SysRecord}
    {c : SysConf} (hi : J.inv w.jobs) (hl : ∀ l ∈ ls, permit l)
    (hr : D.system.run (.initial w) ls = some (rs, c))
    (hcond : ∀ r ∈ rs, r.Known D.system (J.toProtocol.outline D) →
      J.cond r.op r.before.jobs r.call) :
    (∀ r ∈ rs, r.Known D.system (J.toProtocol.outline D)) ∧
      c.Good D.system (J.toProtocol.outline D) permit J.toProtocol.post := by
  have hsound : (J.toProtocol.outline D).Sound D.system permit J.toProtocol.post :=
    hJ.protocol.outline fun _ _ _ => trivial
  exact hsound.run (.initial hi) hl hr hcond

end JobProtocol

end TrainVla
