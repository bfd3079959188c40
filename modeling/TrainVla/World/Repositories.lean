import TrainVla.Store.Table
import TrainVla.Store.Earliest
import TrainVla.Common.Models

/-! The in-memory repositories: documents in the order of their creation. -/
namespace TrainVla

open Store

abbrev JobTable := Table Job String Job.id

abbrev UserTable := Table User String User.id

namespace JobTable

def listForUser (jobs : JobTable) (userId : String) : List Job :=
  jobs.rows.filter fun job => job.userId = userId

/-- The jobs in the given statuses, oldest first; the sort is stable. -/
def listByStatuses (jobs : JobTable) (statuses : List JobStatus) : List Job :=
  (jobs.rows.filter fun job => job.status ∈ statuses).insertionSort
    fun a b => a.createdAt ≤ b.createdAt

theorem mem_listForUser {jobs : JobTable} {userId : String} {job : Job} :
    job ∈ listForUser jobs userId ↔ job ∈ jobs ∧ job.userId = userId := by
  simp [listForUser, Table.mem_def]

theorem mem_listByStatuses {jobs : JobTable} {statuses : List JobStatus} {job : Job} :
    job ∈ listByStatuses jobs statuses ↔ job ∈ jobs ∧ job.status ∈ statuses := by
  unfold listByStatuses
  rw [List.mem_insertionSort, List.mem_filter, Table.mem_def]
  simp

theorem listByStatuses_nodup (jobs : JobTable) (statuses : List JobStatus) :
    ((listByStatuses jobs statuses).map Job.id).Nodup := by
  have hperm := List.perm_insertionSort (fun a b : Job => a.createdAt ≤ b.createdAt)
    (jobs.rows.filter fun job => job.status ∈ statuses)
  unfold listByStatuses
  rw [(hperm.map Job.id).nodup_iff]
  exact jobs.nodup.sublist (List.filter_sublist.map Job.id)

theorem listByStatuses_eq_nil {jobs : JobTable} {statuses : List JobStatus}
    (h : listByStatuses jobs statuses = []) {job : Job} (hj : job ∈ jobs) :
    job.status ∉ statuses := by
  intro hs
  have : job ∈ listByStatuses jobs statuses := mem_listByStatuses.mpr ⟨hj, hs⟩
  rw [h] at this
  simp at this

/-- The first of the listed jobs stays the first when its document is rewritten. -/
theorem head_listByStatuses_put {jobs : JobTable} {statuses : List JobStatus} {job new : Job}
    (h : (listByStatuses jobs statuses).head? = some job) (hid : new.id = job.id)
    (hcreated : new.createdAt = job.createdAt) (hstatus : new.status ∈ statuses) :
    (listByStatuses (jobs.put new) statuses).head? = some new := by
  obtain ⟨rest, hsort⟩ := List.head?_eq_some_iff.mp h
  have hjob : job ∈ jobs ∧ job.status ∈ statuses := by
    apply mem_listByStatuses.mp
    rw [hsort]
    exact List.mem_cons_self
  obtain ⟨before, after, hrows, hbefore, hafter⟩ := first_of_insertionSort Job.createdAt hsort
  let rewritten : Job → Job := fun c => if c.id = new.id then new else c
  have hput : (jobs.put new).rows = jobs.rows.map rewritten := Table.rows_put_of_mem hjob.1 hid.symm
  have hsame : ∀ c ∈ jobs.rows,
      (rewritten c).createdAt = c.createdAt ∧ ((rewritten c).status ∈ statuses ↔ c.status ∈ statuses) := by
    intro c hc
    by_cases hk : c.id = new.id
    · obtain rfl := Table.eq_of_key_eq hc hjob.1 (hk.trans hid)
      simp only [rewritten, if_pos hk]
      exact ⟨hcreated, iff_of_true hstatus hjob.2⟩
    · simp only [rewritten, if_neg hk]
      exact ⟨trivial, trivial⟩
  have hfilter : (jobs.put new).rows.filter (fun c => c.status ∈ statuses) =
      (before ++ job :: after).map rewritten := by
    rw [hput, List.filter_map, ← hrows]
    congr 1
    apply List.filter_congr
    intro c hc
    simpa using (hsame c hc).2
  have hmem : ∀ c ∈ before ++ job :: after, (rewritten c).createdAt = c.createdAt := by
    intro c hc
    rw [← hrows] at hc
    exact (hsame c (List.mem_filter.mp hc).1).1
  have hfirst : rewritten job = new := if_pos hid.symm
  have hbefore' : ∀ b ∈ before.map rewritten, new.createdAt < b.createdAt := by
    intro b hb
    obtain ⟨c, hc, rfl⟩ := List.mem_map.mp hb
    rw [hmem c (List.mem_append_left _ hc), hcreated]
    exact hbefore c hc
  have hafter' : ∀ b ∈ after.map rewritten, new.createdAt ≤ b.createdAt := by
    intro b hb
    obtain ⟨c, hc, rfl⟩ := List.mem_map.mp hb
    rw [hmem c (List.mem_append_right _ (List.mem_cons_of_mem _ hc)), hcreated]
    exact hafter c hc
  obtain ⟨rest', hrest⟩ := insertionSort_of_first Job.createdAt hbefore' hafter'
  unfold listByStatuses
  rw [hfilter, List.map_append, List.map_cons, hfirst, hrest]
  rfl

end JobTable

namespace UserTable

def getByEmail (users : UserTable) (email : String) : Option User :=
  users.rows.find? fun user => user.email = some email

def getByHfUserId (users : UserTable) (hfUserId : String) : Option User :=
  users.rows.find? fun user => user.hfUserId = some hfUserId

end UserTable

end TrainVla
