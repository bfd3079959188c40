import TrainVla.System.Soundness
import TrainVla.System.JobWrites
import TrainVla.Store.Copies

/-! Whatever crashes, each job is charged at most once, and run at most once, after it was
charged. The history of charges and runs is orderly because a job is charged only when it has
just left the queue, and no write ever puts a job back into it. -/
namespace TrainVla

open Interaction Store

def Entry.chargedId? : Entry → Option String
  | .charged jobId _ => some jobId
  | _ => none

def Entry.ranId? : Entry → Option String
  | .ran jobId => jobId
  | _ => none

namespace SingleStart

/-- The jobs that were charged, and those that were run, as often as it happened. -/
def chargedIds (log : List Entry) : List String := log.filterMap Entry.chargedId?

def ranIds (log : List Entry) : List String := log.filterMap Entry.ranId?

/-- A charge is the first one of its job; a run is the first one of its job, and the job was
charged before. The history is newest first. -/
def Orderly : List Entry → Prop
  | [] => True
  | .charged jobId _ :: log => jobId ∉ chargedIds log ∧ Orderly log
  | .ran jobId :: log =>
    (∃ id, jobId = some id ∧ id ∈ chargedIds log ∧ id ∉ ranIds log) ∧ Orderly log
  | _ :: log => Orderly log

namespace Orderly

theorem cons {entry : Entry} {log : List Entry} (h : Orderly log)
    (hcharged : ∀ jobId userId, entry = .charged jobId userId → jobId ∉ chargedIds log)
    (hran : ∀ jobId, entry = .ran jobId →
      ∃ id, jobId = some id ∧ id ∈ chargedIds log ∧ id ∉ ranIds log) : Orderly (entry :: log) := by
  cases entry with
  | charged jobId userId => exact ⟨hcharged jobId userId rfl, h⟩
  | ran jobId => exact ⟨hran jobId rfl, h⟩
  | _ => exact h

theorem tail {entry : Entry} {log : List Entry} (h : Orderly (entry :: log)) : Orderly log := by
  cases entry with
  | charged jobId userId => exact h.2
  | ran jobId => exact h.2
  | _ => exact h

/-- Entries of other kinds. -/
theorem append {entries log : List Entry} (h : Orderly log)
    (hentries : ∀ entry ∈ entries, (∀ jobId userId, entry ≠ .charged jobId userId) ∧
      ∀ jobId, entry ≠ .ran jobId) : Orderly (entries ++ log) := by
  induction entries with
  | nil => exact h
  | cons entry entries ih =>
    rw [List.forall_mem_cons] at hentries
    obtain ⟨⟨hcharged, hran⟩, hrest⟩ := hentries
    rw [List.cons_append]
    refine (ih hrest).cons (fun jobId userId heq => ?_) (fun jobId heq => ?_)
    · exact absurd heq (hcharged jobId userId)
    · exact absurd heq (hran jobId)

theorem chargedIds_nodup {log : List Entry} (h : Orderly log) : (chargedIds log).Nodup := by
  induction log with
  | nil => exact List.nodup_nil
  | cons entry log ih =>
    have hlog := ih h.tail
    cases entry with
    | charged jobId userId => exact List.nodup_cons.mpr ⟨h.1, hlog⟩
    | _ => exact hlog

theorem ranIds_nodup {log : List Entry} (h : Orderly log) : (ranIds log).Nodup := by
  induction log with
  | nil => exact List.nodup_nil
  | cons entry log ih =>
    have hlog := ih h.tail
    cases entry with
    | ran jobId =>
      obtain ⟨⟨id, rfl, -, hran⟩, -⟩ := h
      exact List.nodup_cons.mpr ⟨hran, hlog⟩
    | _ => exact hlog

theorem charged_of_ran {log : List Entry} (h : Orderly log) {id : String} (hid : id ∈ ranIds log) :
    id ∈ chargedIds log := by
  induction log with
  | nil => exact absurd hid List.not_mem_nil
  | cons entry log ih =>
    cases entry with
    | charged jobId userId => exact List.mem_cons_of_mem _ (ih h.tail hid)
    | ran jobId =>
      obtain ⟨⟨id', rfl, hcharged, -⟩, hlog⟩ := h
      rcases List.mem_cons.mp hid with rfl | hid
      · exact hcharged
      · exact ih hlog hid
    | _ => exact ih h.tail hid

/-- Every run of the history comes after the charge of its job. -/
theorem charged_before {later earlier : List Entry} {jobId : Option String}
    (h : Orderly (later ++ .ran jobId :: earlier)) :
    ∃ id, jobId = some id ∧ id ∈ chargedIds earlier := by
  induction later with
  | nil =>
    obtain ⟨⟨id, hid, hcharged, -⟩, -⟩ := h
    exact ⟨id, hid, hcharged⟩
  | cons entry later ih => exact ih h.tail

end Orderly

/-- A call adds a charge, or a run, only if it is the one that does so. -/
theorem entry_of_logs {c : Call} {entry : Entry} (h : c.logs entry) :
    ((∃ jobId userId, entry = .charged jobId userId) → c.writesUsers = true) ∧
      ((∃ jobId, entry = .ran jobId) → c.movesContainers = true) := by
  cases c with
  | jobsCreate job =>
    obtain ⟨time, old, rfl⟩ := h
    simp
  | jobsUpdate seen job =>
    obtain ⟨time, old, rfl⟩ := h
    simp
  | usersUpdate charge seen user =>
    cases charge with
    | none => exact h.elim
    | some jobId =>
      obtain rfl := h
      simp [Call.writesUsers]
  | dockerRun spec =>
    obtain rfl := h
    simp [Call.movesContainers]
  | storageOpenReadStream purpose objectPath =>
    obtain ⟨data, rfl⟩ := h
    simp
  | storageUploadFile objectPath jobId =>
    obtain ⟨data, rfl⟩ := h
    simp
  | hubDownloadDataset repoId dirName =>
    obtain ⟨files, rfl⟩ := h
    simp
  | _ => exact h.elim

theorem chargedIds_append {entries log : List Entry}
    (h : ∀ entry ∈ entries, ∀ jobId userId, entry ≠ .charged jobId userId) :
    chargedIds (entries ++ log) = chargedIds log := by
  refine filterMap_append_of_none fun entry hmem => ?_
  cases entry with
  | charged jobId userId => exact absurd rfl (h _ hmem jobId userId)
  | _ => rfl

theorem ranIds_append {entries log : List Entry}
    (h : ∀ entry ∈ entries, ∀ jobId, entry ≠ .ran jobId) :
    ranIds (entries ++ log) = ranIds log := by
  refine filterMap_append_of_none fun entry hmem => ?_
  cases entry with
  | ran jobId => exact absurd rfl (h _ hmem jobId)
  | _ => rfl

section

variable {steady : Bool} {o : Choice} {w w' : World} {c : Call} {r : c.Resp}

theorem exec_chargedIds (h : World.exec steady o w c = some (r, w')) (hc : c.writesUsers = false) :
    chargedIds w'.log = chargedIds w.log := by
  obtain ⟨entries, hlog, hentries⟩ := (World.exec_frame h).log
  rw [hlog]
  refine chargedIds_append fun entry hmem jobId userId heq => ?_
  have := (entry_of_logs (hentries entry hmem)).1 ⟨jobId, userId, heq⟩
  rw [hc] at this
  cases this

theorem exec_ranIds (h : World.exec steady o w c = some (r, w')) (hc : c.movesContainers = false) :
    ranIds w'.log = ranIds w.log := by
  obtain ⟨entries, hlog, hentries⟩ := (World.exec_frame h).log
  rw [hlog]
  refine ranIds_append fun entry hmem jobId heq => ?_
  have := (entry_of_logs (hentries entry hmem)).2 ⟨jobId, heq⟩
  rw [hc] at this
  cases this

theorem exec_orderly (h : World.exec steady o w c = some (r, w')) (hc : c.writesUsers = false)
    (hc' : c.movesContainers = false) (hw : Orderly w.log) : Orderly w'.log := by
  obtain ⟨entries, hlog, hentries⟩ := (World.exec_frame h).log
  rw [hlog]
  refine hw.append fun entry hmem => ⟨fun jobId userId heq => ?_, fun jobId heq => ?_⟩
  · have := (entry_of_logs (hentries entry hmem)).1 ⟨jobId, userId, heq⟩
    rw [hc] at this
    cases this
  · have := (entry_of_logs (hentries entry hmem)).2 ⟨jobId, heq⟩
    rw [hc'] at this
    cases this

end

/-- What is charged was created, and is not in the queue any more. -/
structure Inv (w : World) : Prop where
  orderly : Orderly w.log
  created : ∀ id ∈ chargedIds w.log, ∃ job, w.jobs.get? id = some job
  left : ∀ job ∈ w.jobs, job.status = .queued → job.id ∉ chargedIds w.log

/-- No job leaves the queue or comes back. -/
def QueueKept (old new : Job) : Prop := new.status = .queued ↔ old.status = .queued

/-- What requests and sweeps do while the worker is at something. -/
structure Aside (w w' : World) : Prop where
  jobs : Table.Evolves QueueKept w.jobs w'.jobs
  charged : chargedIds w'.log = chargedIds w.log
  ran : ranIds w'.log = ranIds w.log

/-- What the poller knows of the job that it is about to start. -/
def Knows (job : Job) (w : World) : Stage → Prop
  | .next | .owned _ => ∃ stored, w.jobs.get? job.id = some stored ∧ stored.status = .queued
  | .started _ => (∃ stored, w.jobs.get? job.id = some stored ∧ stored.status ≠ .queued) ∧
    job.id ∉ chargedIds w.log
  | .charged => job.id ∈ chargedIds w.log ∧ job.id ∉ ranIds w.log
  | _ => True

/-- A request is not interrupted, so it knows the documents that it has read. -/
def protocol : Protocol where
  inv := Inv
  rely op w w' := Aside w w' ∧ (op.threaded = false → w' = w)
  cond _ _ _ := True
  holds op f w :=
    match f with
    | .job st job => (op.threaded = false → w.jobs.get? job.id = some job) ∧ Knows job w st
    | _ => True

theorem QueueKept.rfl (job : Job) : QueueKept job job := Iff.rfl

theorem QueueKept.trans (a b c : Job) (h₁ : QueueKept a b) (h₂ : QueueKept b c) : QueueKept a c :=
  Iff.trans h₂ h₁

theorem Aside.rfl (w : World) : Aside w w := ⟨.rfl .rfl, Eq.refl _, Eq.refl _⟩

theorem Aside.trans {w₁ w₂ w₃ : World} (h₁ : Aside w₁ w₂) (h₂ : Aside w₂ w₃) : Aside w₁ w₃ :=
  ⟨h₁.jobs.trans .trans h₂.jobs, h₂.charged.trans h₁.charged, h₂.ran.trans h₁.ran⟩

theorem Knows.aside {job : Job} {st : Stage} {w w' : World} (h : Knows job w st)
    (hw : Aside w w') : Knows job w' st := by
  cases st with
  | next =>
    obtain ⟨stored, hstored, hq⟩ := h
    obtain ⟨stored', hstored', hkept⟩ := hw.jobs _ _ hstored
    exact ⟨stored', hstored', hkept.mpr hq⟩
  | owned user =>
    obtain ⟨stored, hstored, hq⟩ := h
    obtain ⟨stored', hstored', hkept⟩ := hw.jobs _ _ hstored
    exact ⟨stored', hstored', hkept.mpr hq⟩
  | started user =>
    obtain ⟨⟨stored, hstored, hq⟩, hcharged⟩ := h
    obtain ⟨stored', hstored', hkept⟩ := hw.jobs _ _ hstored
    refine ⟨⟨stored', hstored', fun hq' => hq (hkept.mp hq')⟩, ?_⟩
    rwa [hw.charged]
  | charged =>
    obtain ⟨hcharged, hran⟩ := h
    unfold Knows
    rw [hw.charged, hw.ran]
    exact ⟨hcharged, hran⟩
  | _ => trivial

section

variable {D : Deployment} {op : Op} {o : Choice} {w w' : World} {c : Call} {r : c.Resp}

/-- Calls other than the writes and the start of a container. -/
theorem aside_of_frame (h : World.exec D.steady o w c = some (r, w')) (hjobs : c.writesJobs = false)
    (husers : c.writesUsers = false) (hcontainers : c.movesContainers = false) : Aside w w' where
  jobs := by
    rw [(World.exec_frame h).jobs hjobs]
    exact .rfl .rfl
  charged := exec_chargedIds h husers
  ran := exec_ranIds h hcontainers

theorem valid : protocol.Valid D where
  preorders := by
    refine ⟨fun op w => ⟨.rfl w, fun _ => rfl⟩, fun op w₁ w₂ w₃ h₁ h₂ => ?_⟩
    refine ⟨h₁.1.trans h₂.1, fun hop => ?_⟩
    rw [h₂.2 hop, h₁.2 hop]
  stable op f w w' hrely _ hf := by
    cases f with
    | job st job =>
      refine ⟨fun hop => ?_, hf.2.aside hrely.1⟩
      rw [hrely.2 hop]
      exact hf.1 hop
    | _ => trivial
  survive op o w c r w' f hi hpre _ he hs hf := by
    cases f with
    | job st job =>
      have hframe : c.writesJobs = false → c.writesUsers = false → c.movesContainers = false →
          protocol.holds op (.job st job) w' := by
        intro hjobs husers hcontainers
        refine ⟨fun hop => ?_, hf.2.aside (aside_of_frame he hjobs husers hcontainers)⟩
        rw [(World.exec_frame he).jobs hjobs]
        exact hf.1 hop
      cases keepsDocument_of_survives hs with
      | quiet hjobs husers hcontainers => exact hframe hjobs husers hcontainers
      | updated hst hne =>
        subst hst
        obtain rfl := World.exec_jobsUpdate he
        exact ⟨fun hop => (Table.get?_put_of_ne hne).trans (hf.1 hop), trivial⟩
      | killed hst =>
        subst hst
        refine ⟨fun hop => ?_, trivial⟩
        rw [(World.exec_frame he).jobs rfl]
        exact hf.1 hop
      | removed => exact hframe rfl rfl rfl
    | _ => trivial
  learn op o w c r w' fs f hi hpre _ he hl hfs := by
    have hframe : c.writesJobs = false → w'.jobs = w.jobs := (World.exec_frame he).jobs
    cases hl with
    | got =>
      obtain ⟨hget, rfl⟩ := Prod.mk.inj (Option.some.inj he)
      exact ⟨fun _ => Table.get?_of_mem (Table.mem_of_get? hget), trivial⟩
    | found hmem =>
      obtain ⟨rfl, rfl⟩ := Prod.mk.inj (Option.some.inj he)
      exact ⟨fun _ => Table.get?_of_mem (JobTable.mem_listByStatuses.mp hmem).1, trivial⟩
    | next =>
      obtain ⟨hjobs, rfl⟩ := Prod.mk.inj (Option.some.inj he)
      obtain ⟨hmem, hq⟩ := JobTable.mem_listByStatuses.mp (hjobs ▸ List.mem_cons_self ..)
      have hstored := Table.get?_of_mem hmem
      exact ⟨fun _ => hstored, _, hstored, List.mem_singleton.mp hq⟩
    | owned =>
      have hk := hfs _ (List.mem_singleton_self _)
      exact ⟨(fun hst => by cases hst), hk.2.aside (aside_of_frame he rfl rfl rfl)⟩
    | @wrote _ _ st st' seen new now hw hjob _ _ =>
      obtain rfl := World.exec_jobsUpdate he
      have hk : protocol.holds op (.job st seen) w := hfs _ hjob
      refine ⟨fun _ => Table.get?_put_self w.jobs new, ?_⟩
      cases hw with
      | start hq =>
        obtain ⟨stored, hstored, hqueued⟩ := hk.2
        have hleft := hi.left stored (Table.mem_of_get? hstored) hqueued
        rw [Table.key_of_get? hstored] at hleft
        exact ⟨⟨_, Table.get?_put_self w.jobs _, by simp⟩, hleft⟩
      | _ => trivial
    | charged =>
      obtain rfl := World.exec_usersUpdate he
      obtain ⟨-, hcharged⟩ := (hfs _ (List.mem_singleton_self _)).2
      refine ⟨(fun hst => by cases hst), List.mem_cons_self .., fun hran => ?_⟩
      exact hcharged (hi.orderly.charged_of_ran hran)
    | killed _ => exact ⟨(fun hst => by cases hst), trivial⟩
    | launched _ => exact ⟨(fun hst => by cases hst), trivial⟩
    | refused _ => exact ⟨(fun hst => by cases hst), trivial⟩
    | sawProgress _ => exact ⟨(fun hst => by cases hst), trivial⟩
    | sawNoContainer _ _ => exact ⟨(fun hst => by cases hst), trivial⟩
    | polled _ => exact ⟨(fun hst => by cases hst), trivial⟩
    | _ => trivial

theorem Inv.of_log (hi : Inv w) (hjobs : w'.jobs = w.jobs)
    (hcharged : chargedIds w'.log = chargedIds w.log) (hlog : Orderly w'.log) : Inv w' where
  orderly := hlog
  created := by
    rw [hjobs, hcharged]
    exact hi.created
  left := by
    rw [hjobs, hcharged]
    exact hi.left

/-- A write keeps the invariant if it leaves only documents in the queue that were in it. -/
theorem inv_writeJob (hi : Inv w) {job : Job}
    (hq : job.status = .queued → job.id ∉ chargedIds w.log) : Inv (w.writeJob job) where
  orderly := hi.orderly
  created := by
    intro id hid
    show ∃ new, (w.jobs.put job).get? id = some new
    rw [Table.get?_put]
    by_cases heq : id = job.id
    · exact ⟨job, if_pos heq⟩
    · rw [if_neg heq]
      exact hi.created id hid
  left := by
    intro new hnew hqueued
    rcases Table.mem_put.mp hnew with rfl | ⟨hold, -⟩
    · exact hq hqueued
    · exact hi.left new hold hqueued

/-- A job that has never been charged is not in the history of charges. -/
theorem inv_create (hi : Inv w) {job : Job} (hfresh : w.jobs.get? job.id = none) :
    Inv (w.writeJob job) := by
  refine inv_writeJob hi fun _ hcharged => ?_
  obtain ⟨stored, hstored⟩ := hi.created _ hcharged
  rw [hfresh] at hstored
  cases hstored

theorem inv_update {st st' : Stage} {seen new : Job} {now : ℤ} (hi : Inv w)
    (hw : JobWrite op st seen now st' new) (hk : protocol.holds op (.job st seen) w) :
    Inv (w.writeJob new) := by
  refine inv_writeJob hi fun hq => ?_
  obtain ⟨hop, hqueued⟩ := hw.queued_of_queued hq
  rw [hw.id_eq]
  exact hi.left seen (Table.mem_of_get? (hk.1 hop)) hqueued

/-- A request or a sweep takes no job out of the queue. -/
theorem aside_update {st st' : Stage} {seen new : Job} {now : ℤ} (hop : op.threaded = false)
    (hw : JobWrite op st seen now st' new) (hk : protocol.holds op (.job st seen) w) :
    Aside w (w.writeJob new) := by
  refine ⟨Table.evolves_put .rfl fun stored hstored => ?_, rfl, rfl⟩
  rw [hw.id_eq, hk.1 hop] at hstored
  obtain rfl := Option.some.inj hstored
  unfold QueueKept
  rcases hw.status_of_request hop with ⟨-, hstatus, -⟩ | ⟨-, hfailed, hseen⟩
  · rw [hstatus]
  · rw [hfailed]
    rcases hseen with hseen | hseen <;> rw [hseen] <;> decide

/-- The user is charged when the job has just left the queue. -/
theorem inv_charge (hi : Inv w) {job : Job} {before user : User}
    (hk : Knows job w (.started before)) : Inv (w.writeUser (some job.id) user) where
  orderly := ⟨hk.2, hi.orderly⟩
  created := by
    intro id hid
    rcases List.mem_cons.mp hid with rfl | hid
    · obtain ⟨⟨stored, hstored, -⟩, -⟩ := hk
      exact ⟨stored, hstored⟩
    · exact hi.created id hid
  left := by
    intro stored hmem hq hid
    rcases List.mem_cons.mp hid with heq | hid
    · obtain ⟨⟨stored', hstored', hq'⟩, -⟩ := hk
      have hget : w.jobs.get? stored.id = some stored := Table.get?_of_mem hmem
      rw [heq, hstored'] at hget
      obtain rfl := Option.some.inj hget
      exact hq' hq
    · exact hi.left stored hmem hq hid

/-- The container is started once its user was charged. -/
theorem inv_run (hi : Inv w) {job : Job} (hk : Knows job w .charged) (hjobs : w'.jobs = w.jobs)
    (hlog : w'.log = .ran (some job.id) :: w.log) : Inv w' := by
  refine hi.of_log hjobs ?_ ?_ <;> rw [hlog]
  · rfl
  · exact ⟨⟨job.id, rfl, hk⟩, hi.orderly⟩

theorem not_inFlight (h : op.threaded = false) : ¬ InFlight D.system WorkerInterleaved op := by
  rintro (⟨-, hspawn⟩ | ⟨hthread, -⟩)
  · exact hspawn
  · have hthread : op.threaded = true := hthread
    rw [h] at hthread
    cases hthread

/-- While the worker is at something, it does nothing else. -/
theorem not_overlap {op' : Op} (h : op.threaded = true) :
    ¬ Overlap D.system WorkerInterleaved op op' :=
  fun hover => not_inFlight (hover.2 h) hover.1

theorem sound : protocol.Sound D WorkerInterleaved where
  toValid := valid
  exec op o w c r w' hi hpre _ he := by
    have hrely : (op.threaded = false → Aside w w') →
        ∀ op', Overlap D.system WorkerInterleaved op op' → protocol.rely op' w w' := by
      intro haside op' hover
      cases hop : op.threaded with
      | true => exact absurd hover (not_overlap hop)
      | false =>
        refine ⟨haside hop, fun hop' => ?_⟩
        exact absurd hover.1 (not_inFlight hop')
    have hframe : c.writesJobs = false → c.writesUsers = false → c.movesContainers = false →
        Inv w' ∧ ∀ op', Overlap D.system WorkerInterleaved op op' → protocol.rely op' w w' :=
      fun hjobs husers hcontainers => ⟨hi.of_log ((World.exec_frame he).jobs hjobs)
        (exec_chargedIds he husers) (exec_orderly he husers hcontainers hi.orderly),
        hrely fun _ => aside_of_frame he hjobs husers hcontainers⟩
    cases c with
    | jobsCreate job =>
      obtain ⟨rfl, hfresh⟩ := World.exec_jobsCreate he
      exact ⟨inv_create hi hfresh, hrely fun _ => ⟨Table.evolves_put_fresh .rfl hfresh, rfl, rfl⟩⟩
    | jobsUpdate seen new =>
      obtain rfl := World.exec_jobsUpdate he
      obtain ⟨st, now, st', hw, hk, -⟩ := hpre
      exact ⟨inv_update hi hw hk, hrely fun hop => aside_update hop hw hk⟩
    | usersUpdate charge seen user =>
      obtain rfl := World.exec_usersUpdate he
      cases charge with
      | none => exact ⟨hi.of_log rfl rfl hi.orderly, hrely fun _ => ⟨.rfl .rfl, rfl, rfl⟩⟩
      | some jobId =>
        obtain ⟨rfl, job, now, hk, rfl, -⟩ := hpre
        exact ⟨inv_charge hi hk.2, hrely nofun⟩
    | usersCreate user =>
      obtain ⟨rfl, -⟩ := World.exec_usersCreate he
      exact ⟨hi.of_log rfl rfl hi.orderly, hrely fun _ => ⟨.rfl .rfl, rfl, rfl⟩⟩
    | dockerRun spec =>
      obtain ⟨rfl, job, hk, hspec⟩ := hpre
      obtain ⟨dirs, cache, hdirs⟩ := World.prepareMounts_eq w o.time spec
      have hlog : w'.log = .ran (some job.id) :: w.log := by
        rcases World.exec_dockerRun he with ⟨-, rfl⟩ | ⟨id, -, -, -, rfl⟩ <;>
          rw [hdirs, hspec] <;> rfl
      exact ⟨inv_run hi hk.2 ((World.exec_frame he).jobs rfl) hlog, hrely nofun⟩
    | dockerKill containerId =>
      have hthread : op.threaded = true := hpre
      have hlog : w'.log = w.log := by
        rcases World.exec_dockerKill he with ⟨-, rfl⟩ | ⟨containers, -, -, rfl⟩ <;> rfl
      refine ⟨hi.of_log ((World.exec_frame he).jobs rfl) (by rw [hlog]) ?_, hrely fun hop => ?_⟩
      · rw [hlog]
        exact hi.orderly
      · rw [hthread] at hop
        cases hop
    | _ => exact hframe rfl rfl rfl
  occur v w w' _ hi he := by
    obtain ⟨hjobs, -, -, entries, hlog, hentries⟩ := World.occur_frame he
    have hstored : ∀ entry ∈ entries, (∀ jobId userId, entry ≠ .charged jobId userId) ∧
        ∀ jobId, entry ≠ .ran jobId := by
      intro entry hmem
      obtain ⟨objectPath, data, rfl⟩ := hentries entry hmem
      simp
    have hcharged : chargedIds w'.log = chargedIds w.log := by
      rw [hlog]
      exact chargedIds_append fun entry hmem => (hstored entry hmem).1
    have hran : ranIds w'.log = ranIds w.log := by
      rw [hlog]
      exact ranIds_append fun entry hmem => (hstored entry hmem).2
    refine ⟨hi.of_log hjobs hcharged ?_, fun op' hfly => ⟨⟨?_, hcharged, hran⟩, fun hop => ?_⟩⟩
    · rw [hlog]
      exact hi.orderly.append hstored
    · rw [hjobs]
      exact .rfl .rfl
    · exact absurd hfly (not_inFlight hop)

end

end SingleStart

open SingleStart

/-- Whatever crashes and wherever requests fall: every job is charged at most once and run at
most once, and it is charged before it is run. -/
theorem started_at_most_once (D : Deployment) {w : World} {ls : List SysLabel}
    {rs : List SysRecord} {c : SysConf} (hlog : w.log = [])
    (hl : ∀ l ∈ ls, WorkerInterleaved l) (hr : D.system.run (.initial w) ls = some (rs, c)) :
    (chargedIds c.state.log).Nodup ∧ (ranIds c.state.log).Nodup ∧
      ∀ later earlier jobId, c.state.log = later ++ .ran jobId :: earlier →
        ∃ id, jobId = some id ∧ id ∈ chargedIds earlier := by
  have hinv : Inv w := by
    refine ⟨?_, ?_, ?_⟩ <;> rw [hlog]
    · trivial
    · exact fun id hid => absurd hid List.not_mem_nil
    · exact fun job _ _ => List.not_mem_nil
  have hsound : (protocol.outline D).Sound D.system WorkerInterleaved protocol.post :=
    SingleStart.sound.outline fun _ _ _ => trivial
  have hgood := (hsound.run (.initial hinv) hl hr fun _ _ _ => trivial).2
  have horderly : Orderly c.state.log := hgood.inv.orderly
  refine ⟨horderly.chargedIds_nodup, horderly.ranIds_nodup, fun later earlier jobId heq => ?_⟩
  rw [heq] at horderly
  exact horderly.charged_before

/-- A container is started, the worker crashes before it records that, and is restarted. -/
def crashedStart : List SysLabel :=
  .whole (.createJob "user" .act .hfHub "org/dataset" 100) (List.replicate 6 { text := "j" }) ::
    .start .pollerTick :: List.replicate 10 (.work {}) ++
    [.work { text := "c" }, .crash, .start .reconcile] ++ List.replicate 3 (.work {}) ++
    .start .pollerTick :: List.replicate 3 (.work {})

/-- The job is not started again. -/
theorem started_at_most_once_crashed : ∃ rs c,
    Deployment.sample.system.run (.initial .sample) crashedStart = some (rs, c) ∧
      "j" ∈ ranIds c.state.log ∧ (chargedIds c.state.log).Nodup ∧ (ranIds c.state.log).Nodup := by
  have hrun : (Deployment.sample.system.run (.initial .sample) crashedStart).any
      (fun out => "j" ∈ ranIds out.2.state.log) = true := by rfl
  obtain ⟨⟨rs, c⟩, hr, hran⟩ := (Option.any_eq_true _ _).mp hrun
  have hl : ∀ l ∈ crashedStart, WorkerInterleaved l := by
    simp [crashedStart, WorkerInterleaved, Op.threaded]
  obtain ⟨hcharged, hrun, -⟩ := started_at_most_once .sample rfl hl hr
  exact ⟨rs, c, hr, of_decide_eq_true hran, hcharged, hrun⟩

end TrainVla
