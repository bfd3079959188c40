import TrainVla.Queueing.Server
import TrainVla.System.ApiConduct
import TrainVla.Properties.Documents
import TrainVla.Properties.QueueOrder
import TrainVla.Properties.SingleStart
import TrainVla.Properties.WorkerFleet

/-! The jobs are served by a server with one place: what happens to their documents, however
requests, sweeps and worker processes alternate, is a run of that server. -/
namespace TrainVla

open Interaction Store Queueing

/-- The job has the GPU, as far as its document says. -/
def JobStatus.Serving (status : JobStatus) : Prop := status ∈ JobPoller.activeContainerStatuses

instance (status : JobStatus) : Decidable status.Serving := inferInstanceAs (Decidable (_ ∈ _))

namespace SingleServer

/-- What a change of its status is to the server. -/
def change (id : String) (old new : JobStatus) : Option (Queueing.Event String) :=
  if old = .queued then
    if new = .queued then none else if new.Serving then some (.start id) else some (.withdraw id)
  else if old.Serving then if new.Serving then none else some (.finish id)
  else if new.Serving then some (.resume id) else none

end SingleServer

open SingleServer in
def Entry.served? : Entry → Option (Queueing.Event String)
  | .wrote _ none new => some (.arrive new.id)
  | .wrote _ (some old) new => change new.id old.status new.status
  | _ => none

namespace SingleServer

open QueueOrder (queued Chronological)

/-- The history of the documents, oldest first. -/
def served (log : List Entry) : List (Queueing.Event String) := log.reverse.filterMap Entry.served?

def serverAt (log : List Entry) : Option (Server String) := Server.empty.run (served log)

def lastAt (log : List Entry) : Option String := (serverAt log).bind Server.last

def Occupied (jobs : JobTable) (id : String) : Prop := ∃ job ∈ jobs, job.id = id ∧ job.status.Serving

/-- The server shows what the documents say. -/
structure Represents (s : Server String) (jobs : JobTable) : Prop where
  waiting : s.waiting = jobs.queueKeys queued
  serving : ∀ id, s.serving = some id ↔ Occupied jobs id

theorem served_cons (entry : Entry) (log : List Entry) :
    served (entry :: log) = served log ++ entry.served?.toList := by
  unfold served
  rw [List.reverse_cons, List.filterMap_append]
  cases h : entry.served? <;> simp [h]

theorem served_append {entries log : List Entry} (h : ∀ entry ∈ entries, entry.served? = none) :
    served (entries ++ log) = served log := by
  induction entries with
  | nil => rfl
  | cons entry entries ih =>
    rw [List.forall_mem_cons] at h
    rw [List.cons_append, served_cons, ih h.2, h.1, Option.toList_none, List.append_nil]

theorem not_serving_queued : ¬ JobStatus.queued.Serving := by decide

section

variable {jobs : JobTable} {stored new : Job} {id : String}

theorem occupied_iff (hstored : jobs.get? new.id = some stored) :
    Occupied jobs new.id ↔ stored.status.Serving := by
  constructor
  · rintro ⟨job, hjob, hid, hserving⟩
    have hget := Table.get?_of_mem hjob
    rw [hid, hstored] at hget
    obtain rfl := Option.some.inj hget
    exact hserving
  · exact fun h => ⟨stored, Table.mem_of_get? hstored, Table.key_of_get? hstored, h⟩

theorem occupied_put : Occupied (jobs.put new) id ↔
    id = new.id ∧ new.status.Serving ∨ id ≠ new.id ∧ Occupied jobs id := by
  constructor
  · rintro ⟨job, hjob, rfl, hserving⟩
    rcases Table.mem_put.mp hjob with rfl | ⟨hmem, hne⟩
    · exact .inl ⟨rfl, hserving⟩
    · exact .inr ⟨hne, job, hmem, rfl, hserving⟩
  · rintro (⟨rfl, hserving⟩ | ⟨hne, job, hmem, rfl, hserving⟩)
    · exact ⟨new, Table.mem_put_self jobs new, rfl, hserving⟩
    · exact ⟨job, Table.mem_put.mpr (.inr ⟨hmem, hne⟩), rfl, hserving⟩

theorem occupied_put_of_same (hstored : jobs.get? new.id = some stored)
    (hsame : new.status.Serving ↔ stored.status.Serving) :
    Occupied (jobs.put new) id ↔ Occupied jobs id := by
  rw [occupied_put]
  by_cases hid : id = new.id
  · rw [hid, occupied_iff hstored, hsame]
    simp
  · simp [hid]

theorem queued_eq_false {job : Job} (h : job.status ≠ .queued) : queued job = false :=
  decide_eq_false h

theorem queueKeys_put_of_left (hstored : jobs.get? new.id = some stored)
    (hold : stored.status ≠ .queued) (hnew : new.status ≠ .queued) :
    (jobs.put new).queueKeys queued = jobs.queueKeys queued :=
  Table.queueKeys_put_of_same hstored ((queued_eq_false hnew).trans (queued_eq_false hold).symm)

/-- A new job is at the end of the line. -/
theorem Represents.create {s : Server String} (h : Represents s jobs)
    (hfresh : jobs.get? new.id = none) (hnew : new.status = .queued) :
    ∃ s', s.step (.arrive new.id) = some s' ∧ Represents s' (jobs.put new) := by
  have hkeys : (jobs.put new).queueKeys queued = jobs.queueKeys queued ++ [new.id] := by
    rw [Table.queueKeys_put_fresh queued hfresh]
    simp [queued, hnew]
  have hrows : ∀ job ∈ jobs, job.id ≠ new.id := Table.get?_eq_none.mp hfresh
  have hwaiting : new.id ∉ s.waiting := by
    rw [h.waiting]
    intro hmem
    obtain ⟨job, hjob, -, hid⟩ := Table.mem_queueKeys.mp hmem
    exact hrows job hjob hid
  have hoccupied : ¬ Occupied jobs new.id := by
    rintro ⟨job, hjob, hid, -⟩
    exact hrows job hjob hid
  have hserving : s.serving ≠ some new.id := fun hs => hoccupied ((h.serving _).mp hs)
  refine ⟨_, Server.step_eq_some.mpr (.arrive hwaiting hserving), ?_, fun id => ?_⟩
  · show s.waiting ++ [new.id] = _
    rw [hkeys, h.waiting]
  · show s.serving = some id ↔ _
    rw [h.serving, occupied_put, hnew]
    constructor
    · intro hid
      refine .inr ⟨?_, hid⟩
      rintro rfl
      exact hoccupied hid
    · rintro (⟨-, hserving⟩ | ⟨-, hid⟩)
      · exact absurd hserving not_serving_queued
      · exact hid

theorem Represents.not_occupied {s : Server String} (h : Represents s jobs) (hs : s.serving = none) :
    ¬ Occupied jobs id := by
  rw [← h.serving, hs]
  simp

/-- The one who gets the place is alone in it. -/
theorem Represents.some_iff {s : Server String} (h : Represents s jobs) (hs : s.serving = none)
    (hnew : new.status.Serving) : some new.id = some id ↔ Occupied (jobs.put new) id := by
  rw [occupied_put, Option.some.injEq]
  constructor
  · rintro rfl
    exact .inl ⟨rfl, hnew⟩
  · rintro (⟨rfl, -⟩ | ⟨-, hid⟩)
    · rfl
    · exact absurd hid (h.not_occupied hs)

theorem run_some {s s' : Server String} {e : Queueing.Event String} (hs : s.Stepped e s') :
    s.run (some e).toList = some s' :=
  Server.run_cons_eq_some.mpr ⟨s', Server.step_eq_some.mpr hs, rfl⟩

/-- A document in the queue is rewritten: it stays there, is the first and gets the place, or is
withdrawn. -/
theorem Represents.write_queued {s : Server String} (h : Represents s jobs)
    (hstored : jobs.get? new.id = some stored) (hold : stored.status = .queued)
    (hstart : new.status.Serving → s.serving = none ∧ ∃ rest, s.waiting = new.id :: rest) :
    ∃ s', s.run (change new.id stored.status new.status).toList = some s' ∧
      Represents s' (jobs.put new) := by
  unfold change
  rw [if_pos hold]
  by_cases hnew : new.status = .queued
  · rw [if_pos hnew]
    refine ⟨s, rfl, ?_, fun id => ?_⟩
    · rw [Table.queueKeys_put_of_same hstored (by simp [queued, hold, hnew]), h.waiting]
    · rw [h.serving, occupied_put_of_same hstored (by rw [hold, hnew])]
  rw [if_neg hnew]
  have hkeys := Table.queueKeys_put_of_not hstored (queued_eq_false hnew)
  by_cases hserving : new.status.Serving
  · rw [if_pos hserving]
    obtain ⟨hfree, rest, hwaiting⟩ := hstart hserving
    refine ⟨_, run_some (.start hfree hwaiting), ?_, fun id => h.some_iff hfree hserving⟩
    -- nobody is in the line twice
    have hnodup := jobs.queueKeys_nodup queued
    rw [← h.waiting, hwaiting, List.nodup_cons] at hnodup
    show rest = _
    rw [hkeys, ← h.waiting, hwaiting, List.filter_cons_of_neg (by simp), eq_comm,
      List.filter_eq_self]
    intro id hid
    rw [decide_eq_true_eq]
    rintro rfl
    exact hnodup.1 hid
  · rw [if_neg hserving]
    have hmem : new.id ∈ s.waiting := by
      rw [h.waiting]
      exact Table.mem_queueKeys.mpr ⟨stored, Table.mem_of_get? hstored, decide_eq_true hold,
        Table.key_of_get? hstored⟩
    have hsame : new.status.Serving ↔ stored.status.Serving := by
      rw [hold]
      exact iff_of_false hserving not_serving_queued
    refine ⟨_, run_some (.withdraw hmem), ?_, fun id => ?_⟩
    · show s.waiting.filter _ = _
      rw [hkeys, h.waiting]
    · show s.serving = some id ↔ _
      rw [h.serving, occupied_put_of_same hstored hsame]

/-- A document that has left the queue is rewritten: its job keeps the place, gives it up, or has it
back. -/
theorem Represents.write_left {s : Server String} (h : Represents s jobs)
    (hstored : jobs.get? new.id = some stored) (hold : stored.status ≠ .queued)
    (hleft : new.status ≠ .queued)
    (hresume : ¬ stored.status.Serving → new.status.Serving →
      s.serving = none ∧ s.last = some new.id) :
    ∃ s', s.run (change new.id stored.status new.status).toList = some s' ∧
      Represents s' (jobs.put new) := by
  have hwaiting : s.waiting = (jobs.put new).queueKeys queued := by
    rw [queueKeys_put_of_left hstored hold hleft, h.waiting]
  have hsame : (new.status.Serving ↔ stored.status.Serving) → Represents s (jobs.put new) :=
    fun hsame => ⟨hwaiting, fun id => by rw [h.serving, occupied_put_of_same hstored hsame]⟩
  unfold change
  rw [if_neg hold]
  by_cases hserved : stored.status.Serving
  · rw [if_pos hserved]
    by_cases hserving : new.status.Serving
    · rw [if_pos hserving]
      exact ⟨s, rfl, hsame (iff_of_true hserving hserved)⟩
    · rw [if_neg hserving]
      have hplace : s.serving = some new.id := (h.serving _).mpr ((occupied_iff hstored).mpr hserved)
      refine ⟨_, run_some (.finish hplace), hwaiting, fun id => ?_⟩
      show none = some id ↔ _
      rw [occupied_put, iff_comm]
      simp only [reduceCtorEq, iff_false, not_or, not_and]
      refine ⟨fun _ => hserving, fun hne hid => ?_⟩
      rw [← h.serving, hplace] at hid
      exact hne (Option.some.inj hid).symm
  · rw [if_neg hserved]
    by_cases hserving : new.status.Serving
    · rw [if_pos hserving]
      obtain ⟨hfree, hlast⟩ := hresume hserved hserving
      exact ⟨_, run_some (.resume hfree hlast), hwaiting, fun id => h.some_iff hfree hserving⟩
    · rw [if_neg hserving]
      exact ⟨s, rfl, hsame (iff_of_false hserving hserved)⟩

end

theorem arrivals_change (id : String) (old new : JobStatus) :
    arrivals (change id old new).toList = [] := by
  unfold change
  split
  · split
    · rfl
    · split <;> rfl
  · split
    · split <;> rfl
    · split <;> rfl

/-- Who was in the queue and is served now was started. -/
theorem start?_change {id : String} {old new : JobStatus} {e : Queueing.Event String}
    (h : change id old new = some e) : e.start? = if old = .queued ∧ new.Serving then some id else none := by
  unfold change at h
  split at h
  · rename_i hold
    split at h
    · cases h
    · split at h
      · rename_i hnew
        obtain rfl := Option.some.inj h
        rw [if_pos ⟨hold, hnew⟩]
        rfl
      · rename_i hnew
        obtain rfl := Option.some.inj h
        rw [if_neg fun hc => hnew hc.2]
        rfl
  · rename_i hold
    rw [if_neg fun hc => hold hc.1]
    split at h
    · split at h
      · cases h
      · obtain rfl := Option.some.inj h
        rfl
    · split at h
      · obtain rfl := Option.some.inj h
        rfl
      · cases h

/-- The history is that of the documents, and no job is from the future. -/
structure Inv (w : World) : Prop where
  server : ∃ s, serverAt w.log = some s ∧ Represents s w.jobs
  arrivals : arrivals (served w.log) = w.jobs.rows.map Job.id
  chronological : Chronological w.jobs
  past : ∀ job ∈ w.jobs, job.createdAt ≤ w.clock

/-- A job stays in the queue, or out of it, and is what it was created as. -/
def Kept (old new : Job) : Prop := SingleStart.QueueKept old new ∧ Documents.OriginKept old new

theorem Kept.rfl (job : Job) : Kept job job :=
  ⟨SingleStart.QueueKept.rfl job, Documents.OriginKept.rfl job⟩

theorem Kept.trans (a b c : Job) (h₁ : Kept a b) (h₂ : Kept b c) : Kept a c :=
  ⟨SingleStart.QueueKept.trans a b c h₁.1 h₂.1, Documents.OriginKept.trans a b c h₁.2 h₂.2⟩

/-- What requests and sweeps do while the worker is at something. -/
structure Aside (w w' : World) : Prop where
  waiting : ∃ added, w'.jobs.queueKeys queued = w.jobs.queueKeys queued ++ added
  occupied : ∀ id, Occupied w'.jobs id → Occupied w.jobs id
  kept : Table.Evolves Kept w.jobs w'.jobs
  last : lastAt w'.log = lastAt w.log

/-- The document tells whether the job is in the queue. -/
def Tracked (job : Job) (jobs : JobTable) : Prop :=
  ∃ stored, jobs.get? job.id = some stored ∧ (stored.status = .queued ↔ job.status = .queued)

def Left (job : Job) (jobs : JobTable) : Prop :=
  ∃ stored, jobs.get? job.id = some stored ∧ stored.status ≠ .queued

/-- What the worker knows of a job that it holds. Nobody but the worker starts jobs, so that who was
started last is known for as long as it does something else. -/
def Knows (op : Op) (job : Job) (w : World) : Stage → Prop
  | .next | .owned _ =>
    (∃ rest, w.jobs.queueKeys queued = job.id :: rest) ∧ ∀ id, ¬ Occupied w.jobs id
  | .started _ | .charged | .launched _ | .refused =>
    Left job w.jobs ∧ lastAt w.log = some job.id
  | _ => Tracked job w.jobs ∧
    (op = .completionTick → job.status.Serving → lastAt w.log = some job.id)

/-- A request is not interrupted, so it knows the documents that it has read, and the time. -/
def protocol : Protocol where
  inv := Inv
  rely op w w' := Aside w w' ∧ (op.threaded = false → w' = w)
  cond _ _ _ := True
  holds op f w :=
    match f with
    | .job st job => (op.threaded = false → w.jobs.get? job.id = some job) ∧
      Table.Copy Documents.OriginKept job w.jobs ∧ Knows op job w st
    | .free => ∀ id, ¬ Occupied w.jobs id
    | .stamped _ _ _ now => op.threaded = false → w.clock = now
    | _ => True

namespace Aside

theorem rfl (w : World) : Aside w w :=
  ⟨⟨[], (List.append_nil _).symm⟩, fun _ => id, .rfl Kept.rfl, Eq.refl _⟩

theorem trans {w₁ w₂ w₃ : World} (h₁ : Aside w₁ w₂) (h₂ : Aside w₂ w₃) : Aside w₁ w₃ where
  waiting := by
    obtain ⟨added, hadded⟩ := h₁.waiting
    obtain ⟨added', hadded'⟩ := h₂.waiting
    exact ⟨added ++ added', by rw [hadded', hadded, List.append_assoc]⟩
  occupied id hid := h₁.occupied id (h₂.occupied id hid)
  kept := h₁.kept.trans Kept.trans h₂.kept
  last := h₂.last.trans h₁.last

theorem of_eq {w w' : World} (hjobs : w'.jobs = w.jobs) (hlast : lastAt w'.log = lastAt w.log) :
    Aside w w' where
  waiting := ⟨[], by rw [hjobs, List.append_nil]⟩
  occupied := by
    rw [hjobs]
    exact fun _ => id
  kept := by
    rw [hjobs]
    exact .rfl Kept.rfl
  last := hlast

end Aside

section

variable {op : Op} {job : Job} {st : Stage} {w w' : World}

theorem Tracked.aside (h : Tracked job w.jobs) (ha : Aside w w') : Tracked job w'.jobs := by
  obtain ⟨stored, hstored, hq⟩ := h
  obtain ⟨stored', hstored', hkept⟩ := ha.kept _ _ hstored
  exact ⟨stored', hstored', Iff.trans hkept.1 hq⟩

theorem Left.aside (h : Left job w.jobs) (ha : Aside w w') : Left job w'.jobs := by
  obtain ⟨stored, hstored, hq⟩ := h
  obtain ⟨stored', hstored', hkept⟩ := ha.kept _ _ hstored
  exact ⟨stored', hstored', fun hq' => hq (hkept.1.mp hq')⟩

theorem Knows.aside (h : Knows op job w st) (ha : Aside w w') : Knows op job w' st := by
  have hnext : (∃ rest, w.jobs.queueKeys queued = job.id :: rest) ∧ (∀ id, ¬ Occupied w.jobs id) →
      (∃ rest, w'.jobs.queueKeys queued = job.id :: rest) ∧ ∀ id, ¬ Occupied w'.jobs id := by
    rintro ⟨⟨rest, hrest⟩, hfree⟩
    obtain ⟨added, hadded⟩ := ha.waiting
    refine ⟨⟨rest ++ added, ?_⟩, fun id hid => hfree id (ha.occupied id hid)⟩
    rw [hadded, hrest, List.cons_append]
  have hstarted : Left job w.jobs ∧ lastAt w.log = some job.id →
      Left job w'.jobs ∧ lastAt w'.log = some job.id :=
    fun h => ⟨h.1.aside ha, ha.last.trans h.2⟩
  have hheld : Tracked job w.jobs ∧
      (op = .completionTick → job.status.Serving → lastAt w.log = some job.id) →
      Tracked job w'.jobs ∧
        (op = .completionTick → job.status.Serving → lastAt w'.log = some job.id) :=
    fun h => ⟨h.1.aside ha, fun hop hs => ha.last.trans (h.2 hop hs)⟩
  cases st with
  | next => exact hnext h
  | owned user => exact hnext h
  | started user => exact hstarted h
  | charged => exact hstarted h
  | launched containerId => exact hstarted h
  | refused => exact hstarted h
  | read => exact hheld h
  | dead => exact hheld h
  | sawProgress progress => exact hheld h
  | polled progress exitCode => exact hheld h

/-- What was written while it has the place: the job that is started, or one that had it. -/
theorem serving_cases {st' : Stage} {seen new : Job} {now : ℤ}
    (h : JobWrite op st seen now st' new) (hnew : new.status.Serving) :
    (seen.status = .queued ∧ (∃ user, st = .owned user) ∧ op = .pollerTick) ∨
      seen.status.Serving ∧ (op.threaded = false ∨ (∃ containerId, st = .launched containerId) ∨
        op = .completionTick ∧ ∃ progress exitCode, st = .polled progress exitCode) := by
  have hended : ∀ status : JobStatus, status.Terminal → ¬ status.Serving := by
    intro status
    cases status <;> decide
  cases h with
  | requestCancel => exact .inr ⟨hnew, .inl rfl⟩
  | start hq => exact .inl ⟨hq, ⟨_, rfl⟩, rfl⟩
  | recordContainer hs => exact .inr ⟨hnew, .inr (.inl ⟨_, rfl⟩)⟩
  | enterTraining hs =>
    exact .inr ⟨by rw [hs]; decide, .inr (.inr ⟨rfl, _, _, rfl⟩)⟩
  | recordProgress hs => exact .inr ⟨hnew, .inr (.inr ⟨rfl, _, _, rfl⟩)⟩
  | markAlive hs => exact .inr ⟨hnew, .inr (.inr ⟨rfl, _, _, rfl⟩)⟩
  | timeOut => exact absurd hnew (hended .failed (by decide))
  | cancelUnstarted => exact absurd hnew (hended .cancelled (by decide))
  | cancelKilled => exact absurd hnew (hended .cancelled (by decide))
  | failUnfetched => exact absurd hnew (hended .failed (by decide))
  | failRefused => exact absurd hnew (hended .failed (by decide))
  | complete => exact absurd hnew (hended .completed (by decide))
  | fail => exact absurd hnew (hended .failed (by decide))

theorem serverAt_cons {log : List Entry} {entry : Entry} {s s' : Server String}
    (h : serverAt log = some s) (hs : s.run entry.served?.toList = some s') :
    serverAt (entry :: log) = some s' := by
  unfold serverAt
  rw [served_cons]
  exact Server.run_append h hs

theorem lastAt_of_serverAt {log : List Entry} {s : Server String} (h : serverAt log = some s) :
    lastAt log = s.last := by
  rw [lastAt, h]
  rfl

theorem consistent_of_serverAt {log : List Entry} {s : Server String} (h : serverAt log = some s) :
    s.Consistent := Server.consistent_empty.run h

theorem stored_of_knows (h : Knows op job w st) : ∃ stored, w.jobs.get? job.id = some stored ∧
    ((∃ user, st = .owned user) → stored.status = .queued) := by
  have hnext : (∃ rest, w.jobs.queueKeys queued = job.id :: rest) →
      ∃ stored, w.jobs.get? job.id = some stored ∧ stored.status = .queued := by
    rintro ⟨rest, hrest⟩
    have hmem : job.id ∈ w.jobs.queueKeys queued := by
      rw [hrest]
      exact List.mem_cons_self
    obtain ⟨stored, hstored, hq, hid⟩ := Table.mem_queueKeys.mp hmem
    exact ⟨stored, hid ▸ Table.get?_of_mem hstored, of_decide_eq_true hq⟩
  have hstarted : Left job w.jobs → ∃ stored, w.jobs.get? job.id = some stored :=
    fun ⟨stored, hstored, _⟩ => ⟨stored, hstored⟩
  have hheld : Tracked job w.jobs → ∃ stored, w.jobs.get? job.id = some stored :=
    fun ⟨stored, hstored, _⟩ => ⟨stored, hstored⟩
  have hother : (∃ stored, w.jobs.get? job.id = some stored) → (∀ user, st ≠ .owned user) →
      ∃ stored, w.jobs.get? job.id = some stored ∧
        ((∃ user, st = .owned user) → stored.status = .queued) :=
    fun ⟨stored, hstored⟩ hne => ⟨stored, hstored, fun ⟨user, hst⟩ => absurd hst (hne user)⟩
  cases st with
  | owned user =>
    obtain ⟨stored, hstored, hq⟩ := hnext h.1
    exact ⟨stored, hstored, fun _ => hq⟩
  | next =>
    obtain ⟨stored, hstored, -⟩ := hnext h.1
    exact hother ⟨stored, hstored⟩ (by simp)
  | started user => exact hother (hstarted h.1) (by simp)
  | charged => exact hother (hstarted h.1) (by simp)
  | launched containerId => exact hother (hstarted h.1) (by simp)
  | refused => exact hother (hstarted h.1) (by simp)
  | read => exact hother (hheld h.1) (by simp)
  | dead => exact hother (hheld h.1) (by simp)
  | sawProgress progress => exact hother (hheld h.1) (by simp)
  | polled progress exitCode => exact hother (hheld h.1) (by simp)

section

variable {st' : Stage} {seen new stored : Job} {now : ℤ} {s : Server String}

/-- It is the poller that gives a job from the queue the place. -/
theorem owned_of_write (hw : JobWrite op st seen now st' new)
    (hk : protocol.holds op (.job st seen) w) (hstored : w.jobs.get? seen.id = some stored)
    (hold : stored.status = .queued) (hnew : new.status.Serving) :
    op = .pollerTick ∧ ∃ user, st = .owned user := by
  obtain ⟨hexact, -, hknows⟩ := hk
  rcases serving_cases hw hnew with ⟨-, hst, hop⟩ | ⟨hseen, hstage⟩
  · exact ⟨hop, hst⟩
  · exfalso
    rcases hstage with hop | ⟨containerId, rfl⟩ | ⟨-, progress, exitCode, rfl⟩
    · rw [hexact hop] at hstored
      obtain rfl := Option.some.inj hstored
      rw [hold] at hseen
      exact not_serving_queued hseen
    · obtain ⟨⟨stored', hstored', hleft⟩, -⟩ := hknows
      rw [hstored] at hstored'
      obtain rfl := Option.some.inj hstored'
      exact hleft hold
    · obtain ⟨⟨stored', hstored', hq⟩, -⟩ := hknows
      rw [hstored] at hstored'
      obtain rfl := Option.some.inj hstored'
      rw [hq.mp hold] at hseen
      exact not_serving_queued hseen

/-- A job that gets the place from the queue is the first, and the place is free. -/
theorem first_of_write (hr : Represents s w.jobs) (hw : JobWrite op st seen now st' new)
    (hk : protocol.holds op (.job st seen) w) (hstored : w.jobs.get? seen.id = some stored)
    (hold : stored.status = .queued) (hnew : new.status.Serving) :
    s.serving = none ∧ ∃ rest, s.waiting = new.id :: rest := by
  obtain ⟨-, user, rfl⟩ := owned_of_write hw hk hstored hold hnew
  obtain ⟨⟨rest, hrest⟩, hfree⟩ := hk.2.2
  refine ⟨?_, rest, by rw [hr.waiting, hrest, hw.id_eq]⟩
  cases hserving : s.serving with
  | none => rfl
  | some id => exact absurd ((hr.serving id).mp hserving) (hfree id)

/-- A job that gets the place back was the last one to have it. -/
theorem last_of_write (hr : Represents s w.jobs) (hs : serverAt w.log = some s)
    (hw : JobWrite op st seen now st' new) (hk : protocol.holds op (.job st seen) w)
    (hstored : w.jobs.get? seen.id = some stored) (hold : stored.status ≠ .queued)
    (hserved : ¬ stored.status.Serving) (hnew : new.status.Serving) :
    s.serving = none ∧ s.last = some new.id := by
  obtain ⟨hexact, -, hknows⟩ := hk
  obtain ⟨stored', hstored', howned⟩ := stored_of_knows hknows
  rw [hstored] at hstored'
  obtain rfl := Option.some.inj hstored'
  have hlast : s.last = some new.id := by
    rw [hw.id_eq, ← lastAt_of_serverAt hs]
    rcases serving_cases hw hnew with ⟨-, hst, -⟩ | ⟨hseen, hstage⟩
    · exact absurd (howned hst) hold
    · rcases hstage with hop | ⟨containerId, rfl⟩ | ⟨hop, progress, exitCode, rfl⟩
      · rw [hexact hop] at hstored
        obtain rfl := Option.some.inj hstored
        exact absurd hseen hserved
      · exact hknows.2
      · exact hknows.2 hop hseen
  refine ⟨?_, hlast⟩
  cases hserving : s.serving with
  | none => rfl
  | some id =>
    have hsame : some id = some new.id := (consistent_of_serverAt hs id hserving).symm.trans hlast
    obtain rfl := Option.some.inj hsame
    rw [← hw.id_eq] at hstored
    exact absurd ((occupied_iff hstored).mp ((hr.serving _).mp hserving)) hserved

/-- Every write of a document is a step of the server, or none. -/
theorem exists_server_write (hi : Inv w) (hw : JobWrite op st seen now st' new)
    (hk : protocol.holds op (.job st seen) w) : ∃ stored s s', w.jobs.get? new.id = some stored ∧
      serverAt w.log = some s ∧ Represents s w.jobs ∧
      s.run (change new.id stored.status new.status).toList = some s' ∧
      serverAt (w.writeJob new).log = some s' ∧ Represents s' (w.writeJob new).jobs := by
  obtain ⟨s, hs, hr⟩ := hi.server
  obtain ⟨stored, hstored, -⟩ := stored_of_knows hk.2.2
  have hnewStored : w.jobs.get? new.id = some stored := by rw [hw.id_eq, hstored]
  have hwrite : ∃ s', s.run (change new.id stored.status new.status).toList = some s' ∧
      Represents s' (w.jobs.put new) := by
    by_cases hold : stored.status = .queued
    · exact hr.write_queued hnewStored hold fun hnew => first_of_write hr hw hk hstored hold hnew
    · refine hr.write_left hnewStored hold (fun hq => hold ?_) fun hserved hnew =>
        last_of_write hr hs hw hk hstored hold hserved hnew
      obtain ⟨hop, hseen⟩ := hw.queued_of_queued hq
      rw [hk.1 hop] at hstored
      rw [← Option.some.inj hstored]
      exact hseen
  obtain ⟨s', hrun, hr'⟩ := hwrite
  refine ⟨stored, s, s', hnewStored, hs, hr, hrun, ?_, hr'⟩
  refine serverAt_cons hs ?_
  rw [hnewStored]
  exact hrun

/-- Nobody but the poller changes who was started last. -/
theorem lastAt_write (hi : Inv w) (hop : op ≠ .pollerTick) (hw : JobWrite op st seen now st' new)
    (hk : protocol.holds op (.job st seen) w) : lastAt (w.writeJob new).log = lastAt w.log := by
  obtain ⟨stored, s, s', hstored, hs, -, hrun, hs', -⟩ := exists_server_write hi hw hk
  rw [lastAt_of_serverAt hs', lastAt_of_serverAt hs]
  cases hchange : change new.id stored.status new.status with
  | none =>
    rw [hchange] at hrun
    exact congrArg Server.last (Option.some.inj hrun).symm
  | some e =>
    rw [hchange] at hrun
    obtain ⟨t, hstep, ht⟩ := Server.run_cons_eq_some.mp hrun
    obtain rfl := Option.some.inj ht
    refine Server.last_of_step hstep ?_
    rw [start?_change hchange]
    rw [hw.id_eq] at hstored
    exact if_neg fun hc => hop (owned_of_write hw hk hstored hc.1 hc.2).1

theorem inv_write (hi : Inv w) (hw : JobWrite op st seen now st' new)
    (hk : protocol.holds op (.job st seen) w) : Inv (w.writeJob new) := by
  obtain ⟨stored, s, s', hstored, -, -, -, hs', hr'⟩ := exists_server_write hi hw hk
  have hkept : Documents.OriginKept seen stored := Table.Copy.stored hk.2.1 hw.id_eq hstored
  have horigin : stored.SameOrigin seen := hkept
  have hcreated : new.createdAt = stored.createdAt :=
    hw.sameOrigin.createdAt.trans horigin.createdAt.symm
  refine ⟨⟨s', hs', hr'⟩, ?_, hi.chronological.update hstored hcreated, fun job hjob => ?_⟩
  · show arrivals (served (.wrote w.clock (w.jobs.get? new.id) new :: w.log)) = _
    rw [served_cons, arrivals_append, hi.arrivals, hstored]
    show _ ++ arrivals (change new.id stored.status new.status).toList = _
    rw [arrivals_change, List.append_nil]
    exact (Table.map_rows_put Job.id hstored (Table.key_of_get? hstored).symm).symm
  · rcases Table.mem_put.mp hjob with rfl | ⟨hmem, -⟩
    · rw [hcreated]
      exact hi.past stored (Table.mem_of_get? hstored)
    · exact hi.past job hmem

/-- What a request or a sweep writes is no concern of the worker. -/
theorem aside_write (hi : Inv w) (hop : op.threaded = false) (hw : JobWrite op st seen now st' new)
    (hk : protocol.holds op (.job st seen) w) : Aside w (w.writeJob new) := by
  have hstored : w.jobs.get? new.id = some seen := by rw [hw.id_eq, hk.1 hop]
  have hserving : new.status.Serving → seen.status.Serving := by
    intro hnew
    rcases serving_cases hw hnew with ⟨-, -, rfl⟩ | ⟨hseen, -⟩
    · cases hop
    · exact hseen
  have hqueued : new.status = .queued ↔ seen.status = .queued := by
    rcases hw.status_of_request hop with ⟨-, hstatus, -⟩ | ⟨-, hfailed, hseen⟩
    · rw [hstatus]
    · rw [hfailed]
      rcases hseen with hseen | hseen <;> rw [hseen] <;> decide
  refine ⟨⟨[], ?_⟩, fun id hid => ?_, ?_, ?_⟩
  · rw [List.append_nil]
    refine Table.queueKeys_put_of_same hstored ?_
    rw [queued, queued, decide_eq_decide]
    exact hqueued
  · rcases occupied_put.mp hid with ⟨rfl, hnew⟩ | ⟨-, hold⟩
    · exact (occupied_iff hstored).mpr (hserving hnew)
    · exact hold
  · refine Table.evolves_put Kept.rfl fun old hold => ?_
    have hold : w.jobs.get? new.id = some old := hold
    rw [hstored] at hold
    obtain rfl := Option.some.inj hold
    exact ⟨hqueued, hw.sameOrigin⟩
  · refine lastAt_write hi ?_ hw hk
    rintro rfl
    cases hop

/-- What was written is known. -/
theorem knows_write (hi : Inv w) (hw : JobWrite op st seen now st' new)
    (hk : protocol.holds op (.job st seen) w) : Knows op new (w.writeJob new) st' := by
  have hself : (w.writeJob new).jobs.get? new.id = some new := Table.get?_put_self w.jobs new
  have htracked : Tracked new (w.writeJob new).jobs := ⟨new, hself, Iff.rfl⟩
  have hpolled : op = .completionTick → ∀ progress exitCode, st = .polled progress exitCode →
      seen.status.Serving → lastAt (w.writeJob new).log = some new.id := by
    rintro rfl progress exitCode rfl hseen
    rw [lastAt_write hi (by simp) hw hk, hw.id_eq]
    exact hk.2.2.2 rfl hseen
  cases hw with
  | start hq =>
    obtain ⟨stored, s, s', hstored, hs, hr, hrun, hs', hr'⟩ := exists_server_write hi (.start hq) hk
    refine ⟨⟨_, hself, by simp⟩, ?_⟩
    rw [lastAt_of_serverAt hs']
    have hnew : JobStatus.initializing.Serving := by decide
    have hserving : s'.serving = some seen.id :=
      (hr'.serving _).mpr ⟨_, Table.mem_put_self w.jobs _, rfl, hnew⟩
    exact consistent_of_serverAt hs' _ hserving
  | enterTraining hs _ => exact ⟨htracked, fun hop _ => hpolled hop _ _ rfl (by rw [hs]; decide)⟩
  | recordProgress hs => exact ⟨htracked, fun hop _ => hpolled hop _ _ rfl (by rw [hs]; decide)⟩
  | markAlive hs => exact ⟨htracked, fun hop _ => hpolled hop _ _ rfl (by rw [hs]; decide)⟩
  | complete hs => exact ⟨htracked, fun _ hnew => absurd hnew (show ¬ JobStatus.completed.Serving by decide)⟩
  | fail hs => exact ⟨htracked, fun _ hnew => absurd hnew (show ¬ JobStatus.failed.Serving by decide)⟩
  | _ => exact ⟨htracked, fun hop => by cases hop⟩

end

end

section

variable {D : Deployment} {op : Op} {o : Choice} {w w' : World} {c : Call} {r : c.Resp}

theorem lastAt_of_served {log log' : List Entry} (h : served log' = served log) :
    lastAt log' = lastAt log := by
  unfold lastAt serverAt
  rw [h]

theorem exec_served (he : World.exec D.steady o w c = some (r, w')) (hc : c.writesJobs = false) :
    served w'.log = served w.log := by
  obtain ⟨entries, hlog, hentries⟩ := (World.exec_frame he).log
  rw [hlog]
  refine served_append fun entry hmem => ?_
  cases entry with
  | wrote time old new => exact absurd (hentries _ hmem) (Call.not_wrote_of_logs hc)
  | _ => rfl

/-- Calls that write no documents. -/
theorem aside_of_frame (he : World.exec D.steady o w c = some (r, w')) (hc : c.writesJobs = false) :
    Aside w w' :=
  .of_eq ((World.exec_frame he).jobs hc) (lastAt_of_served (exec_served he hc))

theorem Inv.of_same (hi : Inv w) (hjobs : w'.jobs = w.jobs) (hserved : served w'.log = served w.log)
    (hclock : w.clock ≤ w'.clock) : Inv w' where
  server := by
    unfold serverAt
    rw [hserved, hjobs]
    exact hi.server
  arrivals := by
    rw [hserved, hjobs]
    exact hi.arrivals
  chronological := by
    rw [hjobs]
    exact hi.chronological
  past job hjob := by
    rw [hjobs] at hjob
    exact (hi.past job hjob).trans hclock

section

variable {job : Job}

/-- A new job arrives. -/
theorem exists_server_create (hi : Inv w) (hfresh : w.jobs.get? job.id = none)
    (hnew : job.status = .queued) : ∃ s s', serverAt w.log = some s ∧
      s.step (.arrive job.id) = some s' ∧ serverAt (w.writeJob job).log = some s' ∧
      Represents s' (w.writeJob job).jobs := by
  obtain ⟨s, hs, hr⟩ := hi.server
  obtain ⟨s', hstep, hr'⟩ := hr.create hfresh hnew
  refine ⟨s, s', hs, hstep, serverAt_cons hs ?_, hr'⟩
  rw [hfresh]
  exact Server.run_cons_eq_some.mpr ⟨s', hstep, rfl⟩

theorem inv_create (hi : Inv w) (hfresh : w.jobs.get? job.id = none) (hnew : job.status = .queued)
    (hnow : w.clock = job.createdAt) : Inv (w.writeJob job) := by
  obtain ⟨s, s', -, -, hs', hr'⟩ := exists_server_create hi hfresh hnew
  refine ⟨⟨s', hs', hr'⟩, ?_, hi.chronological.create hfresh ?_, fun other hother => ?_⟩
  · show arrivals (served (.wrote w.clock (w.jobs.get? job.id) job :: w.log)) = _
    rw [served_cons, arrivals_append, hi.arrivals, hfresh]
    show _ = (w.jobs.put job).rows.map Job.id
    rw [Table.rows_put_of_fresh hfresh, List.map_append]
    rfl
  · intro new hcreated old hold
    obtain rfl := Option.some.inj hcreated
    rw [← hnow]
    exact hi.past old hold
  · show other.createdAt ≤ w.clock
    rcases Table.mem_put.mp hother with rfl | ⟨hmem, -⟩
    · exact hnow.ge
    · exact hi.past other hmem

theorem aside_create (hi : Inv w) (hfresh : w.jobs.get? job.id = none)
    (hnew : job.status = .queued) : Aside w (w.writeJob job) := by
  refine ⟨⟨_, Table.queueKeys_put_fresh queued hfresh⟩, fun id hid => ?_,
    Table.evolves_put_fresh Kept.rfl hfresh, ?_⟩
  · rcases occupied_put.mp hid with ⟨-, hserving⟩ | ⟨-, hold⟩
    · rw [hnew] at hserving
      exact absurd hserving not_serving_queued
    · exact hold
  · obtain ⟨s, s', hs, hstep, hs', -⟩ := exists_server_create hi hfresh hnew
    rw [lastAt_of_serverAt hs', lastAt_of_serverAt hs]
    exact Server.last_of_step hstep rfl

end

/-- A document that was just read. -/
theorem holds_found (hi : Inv w) {job : Job} (hjob : job ∈ w.jobs) :
    protocol.holds op (.job .read job) w := by
  have hget := Table.get?_of_mem hjob
  refine ⟨fun _ => hget, .of_mem Documents.OriginKept.rfl hjob, ⟨job, hget, Iff.rfl⟩, ?_⟩
  intro _ hserving
  obtain ⟨s, hs, hr⟩ := hi.server
  have hplace := (hr.serving job.id).mpr ⟨job, hjob, rfl, hserving⟩
  rw [lastAt_of_serverAt hs]
  exact consistent_of_serverAt hs _ hplace

/-- What is held of a document while nothing is written. -/
theorem holds_of_frame (he : World.exec D.steady o w c = some (r, w')) (hc : c.writesJobs = false)
    {st : Stage} {job : Job} (h : protocol.holds op (.job st job) w) :
    protocol.holds op (.job st job) w' := by
  obtain ⟨hexact, hcopy, hknows⟩ := h
  have haside := aside_of_frame he hc
  have hjobs := (World.exec_frame he).jobs hc
  refine ⟨fun hop => by rw [hjobs, hexact hop], ?_, hknows.aside haside⟩
  rw [hjobs]
  exact hcopy

theorem valid : protocol.Valid D where
  preorders := by
    refine ⟨fun op w => ⟨.rfl w, fun _ => rfl⟩, fun op w₁ w₂ w₃ h₁ h₂ => ?_⟩
    refine ⟨h₁.1.trans h₂.1, fun hop => ?_⟩
    rw [h₂.2 hop, h₁.2 hop]
  stable op f w w' hrely _ hf := by
    cases f with
    | job st job =>
      obtain ⟨hexact, hcopy, hknows⟩ := hf
      refine ⟨fun hop => ?_, hcopy.evolve hrely.1.kept fun a b c hab hbc => ?_,
        hknows.aside hrely.1⟩
      · rw [hrely.2 hop]
        exact hexact hop
      · exact Documents.OriginKept.trans a b c hab hbc.2
    | free => exact fun id hid => hf id (hrely.1.occupied id hid)
    | stamped user jobs today now =>
      intro hop
      rw [hrely.2 hop]
      exact hf hop
    | _ => trivial
  survive op o w c r w' f hi hpre _ he hs hf := by
    cases f with
    | job st job =>
      cases keepsDocument_of_survives hs with
      | quiet hjobs => exact holds_of_frame he hjobs hf
      | @updated seen new hst hne =>
        subst hst
        obtain rfl := World.exec_jobsUpdate he
        obtain ⟨hexact, hcopy, ⟨stored, hstored, hq⟩, hlast⟩ := hf
        obtain ⟨st, now, st', hw, hk, -⟩ := hpre
        refine ⟨fun hop => (Table.get?_put_of_ne hne).trans (hexact hop), hcopy.put_of_ne hne,
          ⟨stored, (Table.get?_put_of_ne hne).trans hstored, hq⟩, fun hop hserving => ?_⟩
        rw [lastAt_write hi (by rw [hop]; simp) hw hk]
        exact hlast hop hserving
      | killed => exact holds_of_frame he rfl hf
      | removed => exact holds_of_frame he rfl hf
    | free =>
      have hjobs : c.writesJobs = false := by
        cases c <;> first | rfl | simp [Survives] at hs
      show ∀ id, ¬ Occupied w'.jobs id
      rw [(World.exec_frame he).jobs hjobs]
      exact hf
    | stamped user jobs today now =>
      have hclock : c.movesClock = false := by
        cases c <;> first | rfl | exact hs.elim
      intro hop
      rw [(World.exec_frame he).clock hclock]
      exact hf hop
    | _ => trivial
  learn op o w c r w' fs f hi hpre _ he hl hfs := by
    -- the document was held before, and the call was not a write
    have hheld : ∀ {st st' job}, c.writesJobs = false → .job st job ∈ fs →
        (Knows op job w st → Knows op job w st') → protocol.holds op (.job st' job) w' := by
      intro st st' job hc hmem hknows
      have hk : protocol.holds op (.job st job) w := hfs _ hmem
      exact holds_of_frame he hc ⟨hk.1, hk.2.1, hknows hk.2.2⟩
    cases hl with
    | got =>
      obtain ⟨hget, rfl⟩ := Prod.mk.inj (Option.some.inj he)
      exact holds_found hi (Table.mem_of_get? hget)
    | found hmem =>
      obtain ⟨rfl, rfl⟩ := Prod.mk.inj (Option.some.inj he)
      exact holds_found hi (JobTable.mem_listByStatuses.mp hmem).1
    | free =>
      obtain ⟨hnil, rfl⟩ := Prod.mk.inj (Option.some.inj he)
      rintro id ⟨job, hjob, -, hserving⟩
      exact JobTable.listByStatuses_eq_nil hnil hjob hserving
    | @next job jobs =>
      obtain ⟨hlist, rfl⟩ := Prod.mk.inj (Option.some.inj he)
      have hfree : ∀ id, ¬ Occupied w.jobs id := hfs _ (List.mem_singleton_self _)
      have hqueue : w.jobs.queue queued = job :: jobs :=
        hi.chronological.listByStatuses.symm.trans hlist
      have hjob : job ∈ w.jobs := (QueueOrder.mem_queue.mp (hqueue ▸ List.mem_cons_self)).1
      refine ⟨(fun hop => by cases hop), .of_mem Documents.OriginKept.rfl hjob,
        ⟨jobs.map Job.id, ?_⟩, hfree⟩
      unfold Table.queueKeys
      rw [hqueue, List.map_cons]
    | stamped =>
      obtain ⟨rfl, -⟩ := World.exec_now he
      exact fun _ => rfl
    | @wrote _ _ st st' seen new now hw hjob _ _ =>
      obtain rfl := World.exec_jobsUpdate he
      have hk : protocol.holds op (.job st seen) w := hfs _ hjob
      exact ⟨fun _ => Table.get?_put_self w.jobs new,
        .put_self Documents.OriginKept.rfl w.jobs new, knows_write hi hw hk⟩
    | owned => exact hheld rfl (List.mem_singleton_self _) id
    | charged => exact hheld rfl (List.mem_singleton_self _) id
    | launched _ => exact hheld rfl (List.mem_singleton_self _) id
    | refused _ => exact hheld rfl (List.mem_singleton_self _) id
    | killed _ => exact hheld rfl (List.mem_singleton_self _) id
    | sawProgress _ => exact hheld rfl (List.mem_singleton_self _) id
    | sawNoContainer _ _ => exact hheld rfl (List.mem_singleton_self _) id
    | polled _ => exact hheld rfl (List.mem_singleton_self _) id
    | _ => trivial

theorem sound (hsteady : D.steady = true) : protocol.Sound D WorkerInterleaved where
  toValid := valid
  exec op o w c r w' hi hpre _ he := by
    have hrely : (op.threaded = false → Aside w w') →
        ∀ op', Overlap D.system WorkerInterleaved op op' → protocol.rely op' w w' := by
      intro haside op' hover
      cases hop : op.threaded with
      | true => exact absurd hover (SingleStart.not_overlap hop)
      | false =>
        refine ⟨haside hop, fun hop' => ?_⟩
        exact absurd hover.1 (SingleStart.not_inFlight hop')
    have hclock : w.clock ≤ w'.clock := by
      cases c with
      | now =>
        obtain ⟨rfl, hle⟩ := World.exec_now he
        exact hle hsteady
      | _ => exact ((World.exec_frame he).clock rfl).ge
    cases c with
    | jobsCreate job =>
      obtain ⟨rfl, hfresh⟩ := World.exec_jobsCreate he
      obtain ⟨hop, user, owned, today, now, hnew, hstamped, -⟩ := hpre
      have hnow : w.clock = job.createdAt := by
        rw [hnew.eq]
        exact hstamped (Op.not_threaded_of_submits hop)
      exact ⟨inv_create hi hfresh hnew.status_eq hnow,
        hrely fun _ => aside_create hi hfresh hnew.status_eq⟩
    | jobsUpdate seen new =>
      obtain rfl := World.exec_jobsUpdate he
      obtain ⟨st, now, st', hw, hk, -⟩ := hpre
      exact ⟨inv_write hi hw hk, hrely fun hop => aside_write hi hop hw hk⟩
    | _ =>
      exact ⟨hi.of_same ((World.exec_frame he).jobs rfl) (exec_served he rfl) hclock,
        hrely fun _ => aside_of_frame he rfl⟩
  occur v w w' _ hi he := by
    obtain ⟨hjobs, -, hclock, entries, hlog, hentries⟩ := World.occur_frame he
    have hserved : served w'.log = served w.log := by
      rw [hlog]
      refine served_append fun entry hmem => ?_
      obtain ⟨objectPath, data, rfl⟩ := hentries entry hmem
      rfl
    refine ⟨hi.of_same hjobs hserved hclock.ge, fun op' hfly => ?_⟩
    refine ⟨.of_eq hjobs (lastAt_of_served hserved), fun hop => ?_⟩
    exact absurd hfly (SingleStart.not_inFlight hop)

end

end SingleServer

open SingleServer QueueOrder

/-- With one clock, as long as requests are not interrupted, and with any number of worker processes
that end anywhere: what happens to the documents is a run of a server with one place, and its state
is what the documents say. So jobs are started in the order of their creation, those that wait are
behind them, and a job is started only after the one before it was done. -/
theorem jobs_served_in_order (I : Installation) (hsteady : I.deployment.steady = true) {P : Type}
    [DecidableEq P] {w : World} {ls : List (WorkerFleetLabel P)} {rs : List ApiRecord}
    {c : WorkerFleetConf P} (hjobs : w.jobs = Table.empty) (hlog : w.log = [])
    (hl : ∀ l, .outer l ∈ ls → WorkerInterleaved (l.map (Request.op I)))
    (hr : I.fleet.run (.initial w) ls = some (rs, c)) :
    ∃ s, Server.empty.run (served c.state.log) = some s ∧ Represents s c.state.jobs ∧
      (starts (served c.state.log) ++ c.state.jobs.queueKeys queued).Sublist
        (c.state.jobs.rows.map Job.id) ∧
      ∀ h a m b t, served c.state.log = h ++ .start a :: m ++ .start b :: t → .finish a ∈ m := by
  have hinv : Inv w := by
    refine ⟨⟨.empty, by rw [hlog]; rfl, ?_, fun id => ?_⟩, ?_, ?_, ?_⟩
    · rw [hjobs]
      rfl
    · rw [hjobs]
      constructor
      · intro hid
        cases hid
      · rintro ⟨job, hjob, -⟩
        exact absurd hjob (Table.not_mem_empty job)
    · rw [hlog, hjobs]
      rfl
    · rw [hjobs]
      exact List.Pairwise.nil
    · rw [hjobs]
      exact fun job hjob => absurd hjob (Table.not_mem_empty job)
  have hrun := (SingleServer.sound hsteady).fleet_run (fun _ _ _ => trivial) (fun _ _ _ => trivial)
    (fun _ => trivial) (fun _ => trivial) trivial hinv hl hr
  have hi : Inv c.state := hrun.1
  obtain ⟨s, hs, hrep⟩ := hi.server
  refine ⟨s, hs, hrep, ?_, ?_⟩
  · have horder := Server.served_in_order hs
    rw [hi.arrivals, hrep.waiting] at horder
    exact horder
  · intro h a m b t heq
    have hs : Server.empty.run (served c.state.log) = some s := hs
    rw [heq] at hs
    exact Server.finish_between hs

namespace SingleServer

/-- All parties read one clock. -/
def oneClock : Installation :=
  { Installation.camera with deployment := { Deployment.camera with steady := true } }

/-- A world with two users. -/
def hubUsers : World := { WorkerFleet.hub with users := QueueOrder.twoUsers.users }

def submission (userId jobId : String) : Label Request Choice Event :=
  .whole (.submitHfDataset (some s!"Bearer {userId}") "org/dataset" .act 100)
    (List.replicate 12 { text := jobId })

/-- Two users submit jobs. A worker starts the first one, whose container fails, and is killed after
the completion tick that finds that out. The next worker starts the second job. -/
def twoJobs : List (WorkerFleetLabel ℕ) :=
  [.outer (submission "user" "j"), .outer (submission "other" "k")] ++
    WorkerLocking.attempt 0 3 ++ .letIn 0 :: List.replicate 4 (.work 0 {}) ++ .next 0 ::
    List.replicate 10 (.work 0 {}) ++ [.work 0 { text := "c" }, .work 0 {}, .next 0] ++
    .outer (.event (.containerExits "c" 1)) :: List.replicate 9 (.work 0 {}) ++ .exit 0 ::
    WorkerLocking.attempt 1 3 ++ .letIn 1 :: List.replicate 4 (.work 1 {}) ++ .next 1 ::
    List.replicate 7 (.work 1 {})

end SingleServer

/-- The first job was finished before the second one was started. -/
theorem jobs_served_in_order_takeover : ∃ rs c h m t,
    oneClock.fleet.run (.initial hubUsers) twoJobs = some (rs, c) ∧
      (∃ s, Server.empty.run (served c.state.log) = some s ∧ Represents s c.state.jobs) ∧
      served c.state.log = h ++ .start "j" :: m ++ .start "k" :: t ∧ .finish "j" ∈ m ∧
      (["j", "k"] ++ c.state.jobs.queueKeys queued).Sublist (c.state.jobs.rows.map Job.id) := by
  have hrun : (oneClock.fleet.run (.initial hubUsers) twoJobs).map
      (fun out => served out.2.state.log) =
        some ([.arrive "j", .arrive "k"] ++ .start "j" :: [.finish "j"] ++ .start "k" :: []) := by
    rfl
  obtain ⟨⟨rs, c⟩, hr, hserved⟩ := Option.map_eq_some_iff.mp hrun
  have hserved : served c.state.log =
      [.arrive "j", .arrive "k"] ++ .start "j" :: [.finish "j"] ++ .start "k" :: [] := hserved
  have hl : ∀ l, .outer l ∈ twoJobs → WorkerInterleaved (l.map (Request.op oneClock)) := by
    intro l hmem
    have heq : l = submission "user" "j" ∨ l = submission "other" "k" ∨
        l = .event (.containerExits "c" 1) := by
      simpa [twoJobs, WorkerLocking.attempt] using hmem
    rcases heq with rfl | rfl | rfl
    · rfl
    · rfl
    · trivial
  obtain ⟨s, hs, hrep, horder, hbetween⟩ := jobs_served_in_order oneClock rfl rfl rfl hl hr
  have hstarts : starts (served c.state.log) = ["j", "k"] := by
    rw [hserved]
    rfl
  rw [hstarts] at horder
  exact ⟨rs, c, _, _, _, hr, ⟨s, hs, hrep⟩, hserved, hbetween _ _ _ _ _ hserved, horder⟩

end TrainVla
